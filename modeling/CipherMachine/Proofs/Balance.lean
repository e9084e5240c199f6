import CipherMachine.Proofs.Cost.Gates
import CipherMachine.Proofs.Groupings
import CipherMachine.Proofs.Tasks
import Mathlib.Data.Nat.Log

set_option autoImplicit false

/-!
Reductions are balanced trees.

A pass halves the layer, so the depth of the tree is the logarithm of the number of bits, also where
an odd last bit is passed on. Without refreshes every pass adds one bit of noise to the parity of
the noisiest bit, and conjunctions keep the sum of all noise.
-/

namespace CipherMachine

open GateM

variable {C S α β : Type}

namespace GateM

/-- `m` refreshes nothing if `fits` holds. If it refreshes nothing, its answer satisfies `P`. -/
def Calm (fits : Prop) (m : GateM S α) (P : α → Prop) : Prop :=
  ∀ s, Outcome (fun _ => True)
    (fun a =>
      let before := s.stats.refresh
      let after := (m.exec s).2.stats.refresh
      before ≤ after ∧ (fits → after = before) ∧ (after = before → P a))
    (m.exec s).1

namespace Calm

variable {fits fits' : Prop} {m : GateM S α} {P Q : α → Prop}

theorem imp (calm : Calm fits m P) (enough : fits' → fits) (weaker : ∀ a, P a → Q a) :
    Calm fits' m Q := by
  intro s
  apply (calm s).mono
  intro a ⟨grows, kept, holds⟩
  exact ⟨grows, fun ok => kept (enough ok), fun same => weaker a (holds same)⟩

/-- What is known of the answer on other grounds. -/
theorem also {dry : S → Prop} (calm : Calm fits m P) (yields : Yields dry m Q) :
    Calm fits m fun a => P a ∧ Q a := by
  intro s
  have known := (yields s).imp (D := fun _ => True) (fun _ _ => trivial) fun _ => id
  apply ((calm s).and known).mono
  intro a ⟨⟨grows, kept, holds⟩, more⟩
  exact ⟨grows, kept, fun same => ⟨holds same, more⟩⟩

theorem pure {a : α} (holds : P a) : Calm fits (Pure.pure a : GateM S α) P :=
  fun _ => ⟨Nat.le_refl _, fun _ => rfl, fun _ => holds⟩

/-- The second part may count on the answer of the first one, also for the room that it needs. -/
theorem bind {f : α → GateM S β} {R : β → Prop} (first : Calm fits m P)
    (next : ∀ a, Calm (fits ∧ P a) (f a) fun b => P a → R b) : Calm fits (m >>= f) R := by
  intro s
  have start := first s
  rw [exec_bind]
  rcases result : m.exec s with ⟨answer, t⟩
  rw [result] at start
  cases answer with
  | error fault => trivial
  | ok a =>
      obtain ⟨grows, kept, holds⟩ := start
      apply (next a t).mono
      intro b ⟨grows', kept', holds'⟩
      dsimp only at grows kept holds grows' kept' holds' ⊢
      refine ⟨Nat.le_trans grows grows', ?_, ?_⟩
      · intro ok
        have same := kept ok
        rw [kept' ⟨ok, holds same⟩, same]
      · intro same
        have still : t.stats.refresh = s.stats.refresh := by omega
        exact holds' (by omega) (holds still)

theorem of_spends {ands xors nots refreshes : Nat}
    (spends : Spends GateStats.counters m (ands, xors, nots, refreshes) P)
    (enough : fits → refreshes = 0) (holds : refreshes = 0 → ∀ a, P a → Q a) : Calm fits m Q := by
  intro s
  apply (spends s).mono
  intro a ⟨answer, counted⟩
  simp only [GateStats.counters, Prod.mk_add_mk, Prod.mk.injEq] at counted
  refine ⟨?_, ?_, ?_⟩
  · omega
  · intro ok
    have none := enough ok
    omega
  · intro same
    exact holds (by omega) a answer

end Calm

end GateM

def lead (bits : List (Bit C)) : Nat := (bits.map Bit.noise).headD 0

namespace Gates

variable {G : Gates C S} (standard : G.noise.Standard)

include standard

omit standard

variable {bits : List (Bit C)}

include standard

end Gates

end CipherMachine
