import CipherMachine.Proofs.Outcome
import Mathlib.Algebra.BigOperators.Group.List.Basic
import Mathlib.Algebra.Group.Prod

set_option autoImplicit false

/-!
What computations on encrypted bits add to the counters.

`GateM.Spends tally m cost P` says that `m`, from whatever session it is run, adds exactly `cost` to
the counters that `tally` looks at, and that its result satisfies `P`. Nothing is said of runs that
fault, so a check of widths tells the widths to everything that follows it.
-/

namespace CipherMachine

/-- The gates counted: conjunctions, exclusive disjunctions and negations. -/
def GateStats.gates (s : GateStats) : Nat × Nat × Nat := (s.and, s.xor, s.not)

def GateStats.counters (s : GateStats) : Nat × Nat × Nat × Nat := (s.and, s.xor, s.not, s.refresh)

theorem GateStats.counters_inj {s t : GateStats} (same : s.counters = t.counters) : s = t := by
  cases s
  cases t
  simp only [counters, Prod.mk.injEq] at same
  simpa using same

namespace GateM

variable {S M α β : Type} [AddCommMonoid M]

def Spends (tally : GateStats → M) (m : GateM S α) (cost : M) (P : α → Prop) : Prop :=
  ∀ s, Outcome (fun _ => True)
    (fun a => P a ∧ tally (m.exec s).2.stats = tally s.stats + cost) (m.exec s).1

namespace Spends

variable {tally : GateStats → M} {m : GateM S α} {cost cost' : M} {P Q : α → Prop}

theorem as (spends : Spends tally m cost P) (cost' : M) (same : cost = cost') :
    Spends tally m cost' P :=
  same ▸ spends

theorem mono (spends : Spends tally m cost P) (weaker : ∀ a, P a → Q a) :
    Spends tally m cost Q :=
  fun s => (spends s).mono fun a answer => ⟨weaker a answer.1, answer.2⟩

/-- What is known of the result on other grounds. -/
theorem and {dry : S → Prop} (spends : Spends tally m cost P) (yields : Yields dry m Q) :
    Spends tally m cost fun a => P a ∧ Q a := by
  intro s
  have answer := (yields s).imp (D := fun _ => True) (fun _ _ => trivial) fun _ => id
  exact ((spends s).and answer).mono fun a both => ⟨⟨both.1.1, both.2⟩, both.1.2⟩

theorem gates {ands xors nots refreshes : Nat}
    (spends : Spends GateStats.counters m (ands, xors, nots, refreshes) P) :
    Spends GateStats.gates m (ands, xors, nots) P := by
  refine fun s => (spends s).mono fun a ⟨holds, counted⟩ => ⟨holds, ?_⟩
  simp only [GateStats.counters, GateStats.gates, Prod.mk_add_mk, Prod.mk.injEq] at counted ⊢
  exact ⟨counted.1, counted.2.1, counted.2.2.1⟩

theorem pure {a : α} (holds : P a) : Spends tally (Pure.pure a : GateM S α) 0 P :=
  fun _ => ⟨holds, (add_zero _).symm⟩

theorem throw (fault : Fault) : Spends tally (MonadExcept.throw fault : GateM S α) cost P :=
  fun _ => trivial

theorem bind {f : α → GateM S β} {R : β → Prop} (first : Spends tally m cost P)
    (next : ∀ a, P a → Spends tally (f a) cost' R) : Spends tally (m >>= f) (cost + cost') R := by
  intro s
  have spent := first s
  rw [exec_bind]
  rcases result : m.exec s with ⟨answer, t⟩
  rw [result] at spent
  cases answer with
  | error fault => trivial
  | ok a =>
      apply (next a spent.1 t).mono
      intro b later
      refine ⟨later.1, ?_⟩
      rw [later.2, spent.2, add_assoc]

theorem map {f : α → β} {R : β → Prop} (spends : Spends tally m cost P)
    (holds : ∀ a, P a → R (f a)) : Spends tally (f <$> m) cost R := by
  rw [map_eq_pure_bind, ← add_zero cost]
  exact spends.bind fun a answer => pure (holds a answer)

theorem guarded {guard : Prop} [Decidable guard] {fault : Fault} {next : Unit → GateM S α}
    (passes : ¬ guard → Spends tally (next ()) cost P) :
    Spends tally (if guard then (MonadExcept.throw fault : GateM S Unit) >>= next else next ())
      cost P := by
  by_cases fails : guard
  · rw [if_pos fails]
    exact throw fault
  · rw [if_neg fails]
    exact passes fails

theorem lift {x : Except Fault α} (holds : ∀ a, x = .ok a → P a) :
    Spends tally (liftM x : GateM S α) 0 P := by
  cases x with
  | error fault => exact throw fault
  | ok a => exact pure (holds a rfl)

theorem call {C : Type} (operation : S → Option (C × S)) :
    Spends tally (GateM.call operation) 0 fun _ => True := by
  intro s
  rw [exec_call]
  cases operation s.state with
  | none => trivial
  | some answer => exact ⟨trivial, (add_zero _).symm⟩

theorem count {f : GateStats → GateStats} (cost : M) (adds : ∀ s, tally (f s) = tally s + cost) :
    Spends tally (GateM.count (S := S) f) cost fun _ => True :=
  fun s => ⟨trivial, adds s.stats⟩

theorem mapM {f : α → GateM S β} {T : β → α → Prop} {price : α → M} {as : List α}
    (step : ∀ a ∈ as, Spends tally (f a) (price a) (T · a)) :
    Spends tally (as.mapM f) (as.map price).sum (List.Forall₂ T · as) := by
  induction as with
  | nil => exact pure .nil
  | cons a as ih =>
      have ⟨first, others⟩ := List.forall_mem_cons.mp step
      rw [List.mapM_cons, List.map_cons, List.sum_cons]
      refine first.bind fun b head => ?_
      rw [← add_zero (as.map price).sum]
      exact (ih others).bind fun bs rest => pure (.cons head rest)

theorem loop {f : α → GateM S β} {R : β → Prop} (as : List α)
    (step : ∀ a ∈ as, Spends tally (f a) cost R) :
    Spends tally (as.mapM f) (as.length • cost)
      fun bs => bs.length = as.length ∧ ∀ b ∈ bs, R b := by
  refine ((mapM step).as _ ?_).mono fun bs answer => ⟨answer.length_eq, fun b member => ?_⟩
  · rw [List.map_const', List.sum_replicate]
  · obtain ⟨i, bound, rfl⟩ := List.getElem_of_mem member
    exact answer.get bound (answer.length_eq ▸ bound)

theorem metered (spends : Spends tally m cost P) :
    Spends tally (GateM.metered m) cost fun answer => P answer.1 := by
  have counters : Spends tally (stats (S := S)) 0 fun _ => True :=
    fun _ => ⟨trivial, (add_zero _).symm⟩
  have chain := counters.bind fun before _ => spends.bind fun a answer =>
    counters.bind fun after _ => pure (a := (a, after.since before)) (P := fun r => P r.1) answer
  apply chain.as
  rw [zero_add, add_zero, add_zero]

end Spends

/-- Where randomness never runs out there is an answer, with what it cost. -/
theorem Yields.answer_spends {tally : GateStats → M} {m : GateM S α} {cost : M} {P Q : α → Prop}
    (yields : Yields (fun _ => False) m P) (spends : Spends tally m cost Q) (s : Session S) :
    ∃ a t, m.exec s = (.ok a, t) ∧ P a ∧ tally t.stats = tally s.stats + cost := by
  obtain ⟨a, t, ran, holds⟩ := yields.answer s
  have spent := spends s
  rw [ran] at spent
  exact ⟨a, t, ran, holds, spent.2⟩

/-- What is known of an answer from its cost. -/
theorem Yields.also {dry : S → Prop} {tally : GateStats → M} {m : GateM S α} {cost : M}
    {P Q : α → Prop} (yields : Yields dry m P) (spends : Spends tally m cost Q) :
    Yields dry m fun a => P a ∧ Q a :=
  fun s => (yields s).and ((spends s).mono fun _ known => known.1)

end GateM

end CipherMachine
