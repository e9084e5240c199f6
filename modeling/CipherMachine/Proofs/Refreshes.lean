import CipherMachine.Proofs.Cost.Refreshes
import CipherMachine.Proofs.Tasks

set_option autoImplicit false

/-!
How often gates refresh.

The operands of a gate are refreshed as the plan says, and the plan is the shortest that makes the
gate fit. A gate with two operands refreshes each of them at most once and a negation its input, so
the gates of a circuit bound its refreshes.
-/

namespace CipherMachine

open GateM

variable {C S α : Type}

/-- A computation of known cost leads wherever that cost does. -/
theorem GateM.Leads.of_spends {R : Session S → Session S → Prop} {dry : S → Prop} {m : GateM S α}
    {cost : Nat × Nat × Nat × Nat} {P : α → Prop} (spends : m.Spends GateStats.counters cost P)
    (yields : m.Yields dry fun _ => True)
    (holds : ∀ s t, t.stats.counters = s.stats.counters + cost → R s t) : m.Leads R := by
  intro s
  have spent := spends s
  have answered := yields s
  rcases result : m.exec s with ⟨answer, t⟩
  rw [result] at spent answered
  cases answer with
  | error fault => exact .inl (congrArg Except.error answered.1)
  | ok a => exact .inr (holds s t spent.2)

namespace Gates

variable (G : Gates C S)

/-- A relation that only looks at counters, and that holds wherever they have grown as by a gate:
by no more refreshes than two for each gate with two operands and one for each negation. -/
theorem leads_of_counters {R : Session S → Session S → Prop} (onward : Onward R)
    (grown : ∀ s t : Session S, ∀ ands xors nots refreshes : Nat,
      t.stats.counters = s.stats.counters + (ands, xors, nots, refreshes) →
        refreshes ≤ 2 * (ands + xors) + nots → R s t) : G.Leads R where
  onward := onward
  encrypt x := by
    have spends : (G.encrypt x).Spends GateStats.counters (0, 0, 0, 0) fun _ => True :=
      (Spends.call _).bind fun _ _ => .pure trivial
    have yields := (Task.encrypt x).yields_of_misuse G rfl
    exact Leads.of_spends spends yields fun s t counted => grown s t _ _ _ _ counted (Nat.le_refl _)
  not a := by
    have yields := (Task.not a).yields_of_misuse G rfl
    exact Leads.of_spends (G.not_counts a) yields fun s t counted =>
      grown s t _ _ _ _ counted (Bool.toNat_le _)
  and a b := by
    have yields := (Task.and a b).yields_of_misuse G rfl
    exact Leads.of_spends (G.and_counts a b) yields fun s t counted =>
      grown s t _ _ _ _ counted (G.noise.length_plan_le _ _ _)
  xor a b := by
    have yields := (Task.xor a b).yields_of_misuse G rfl
    exact Leads.of_spends (G.xor_counts a b) yields fun s t counted =>
      grown s t _ _ _ _ counted (G.noise.length_plan_le _ _ _)

end Gates

end CipherMachine
