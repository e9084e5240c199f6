import CipherMachine.Machine.Run
import CipherMachine.Proofs.Outcome

set_option autoImplicit false

/-!
Runs with observers that read and change a world of their own.

The observer decides after every cycle whether another one follows. Whatever it does, a run keeps
what every cycle keeps.
-/

namespace CipherMachine.Machine

variable {C S σ : Type} {observe : Machine C S → StateM σ Bool} {E : Fault → Prop}
  {m : Machine C S} {world : σ}

/-- `I` is kept by every cycle, from the number of cycles completed to the next, and `J` by every
observation of a machine that `I` holds of. The induction is on the cycles that are left. -/
theorem cyclesFrom_outcome {I : Nat → Machine C S → Prop} {J : σ → Prop}
    (cycle : ∀ k m, I k m → Outcome E (fun result => I (k + 1) result.1) m.step)
    (observed : ∀ k m w, I k m → J w → J ((observe m).run w).run.2) (n completed : Nat)
    (stop : Bool) (events : List Event) (holds : I completed m) (kept : J world) :
    let result := ((cyclesFrom observe n completed stop events m).run world).run
    Outcome E (fun run => I run.completed run.machine) result.1 ∧ J result.2 := by
  induction n generalizing completed stop events m world with
  | zero => exact ⟨holds, kept⟩
  | succ n ih =>
      cases stop with
      | true => exact ⟨holds, kept⟩
      | false =>
          have next := cycle completed m holds
          rw [cyclesFrom]
          cases result : m.step with
          | error fault =>
              rw [result] at next
              exact ⟨next, kept⟩
          | ok result =>
              rw [result] at next
              exact ih _ _ _ next (observed _ _ _ next kept)

theorem runObserved_outcome {I : Nat → Machine C S → Prop} {J : σ → Prop}
    (cycle : ∀ k m, I k m → Outcome E (fun result => I (k + 1) result.1) m.step)
    (observed : ∀ k m w, I k m → J w → J ((observe m).run w).run.2) (n : Nat) (stop : Bool)
    (holds : I 0 m) (kept : J world) :
    let result := ((m.runObserved n stop observe).run world).run
    Outcome E (fun run => I run.completed run.machine) result.1 ∧ J result.2 := by
  have cycles := cyclesFrom_outcome cycle observed n 0 stop [.running n] holds kept
  unfold runObserved
  rw [StateT.run_bind]
  rcases result : (cyclesFrom observe n 0 stop [.running n] m).run world with ⟨answer, w⟩
  rw [result] at cycles
  cases answer with
  | ok run => exact cycles
  | error fault => exact cycles

/-- The cycles that are completed under an observer whose answer is always the same. -/
theorem cyclesFrom_completed {stops : Bool}
    (answers : ∀ m world, ((observe m).run world).run.1 = stops) (n completed : Nat) (stop : Bool)
    (events : List Event) (m : Machine C S) (world : σ) :
    Outcome (fun _ => True) (fun run => run.completed = completed +
        if stop then 0 else if stops then min n 1 else n)
      ((cyclesFrom observe n completed stop events m).run world).run.1 := by
  induction n generalizing completed stop events m world with
  | zero =>
      change completed = _
      simp
  | succ n ih =>
      cases stop with
      | true => exact rfl
      | false =>
          rw [cyclesFrom]
          cases m.step with
          | error fault => trivial
          | ok result =>
              have rest := ih (completed + 1) ((observe result.1).run world).run.1
                (result.2.reverse ++ events) result.1 ((observe result.1).run world).run.2
              apply rest.mono
              intro run count
              rw [count, answers]
              cases stops with
              | true => simp
              | false =>
                  simp only [Bool.false_eq_true, if_false]
                  omega

/-- A run goes on to its last cycle if its observer never asks it to stop, and ends after one cycle
if it always does. -/
theorem runObserved_completed (stops : Bool) (observe : Machine C S → StateM σ Bool)
    (answers : ∀ m world, ((observe m).run world).run.1 = stops) (n : Nat) (m : Machine C S)
    (world : σ) :
    Outcome (fun _ => True) (fun run => run.completed = if stops then min n 1 else n)
      ((m.runObserved n false observe).run world).run.1 := by
  have count := cyclesFrom_completed answers n 0 false [.running n] m world
  simp only [Bool.false_eq_true, if_false, Nat.zero_add] at count
  unfold runObserved
  rw [StateT.run_bind]
  exact count.map

/-- A run looks at nothing but what its observer answers: to translate the observer into another
monad is to translate the run. -/
theorem runObserved_natural {M N : Type → Type} [Monad M] [Monad N]
    (φ : ∀ {α : Type}, M α → N α) (pure_eq : ∀ {α : Type} (a : α), φ (pure a : M α) = pure a)
    (bind_eq : ∀ {α β : Type} (x : M α) (f : α → M β), φ (x >>= f) = φ x >>= fun a => φ (f a))
    (observe : Machine C S → M Bool) (n : Nat) (stop : Bool) (m : Machine C S) :
    φ (m.runObserved n stop observe) = m.runObserved n stop fun m => φ (observe m) := by
  have cycles : ∀ n completed stop events (m : Machine C S),
      φ (cyclesFrom observe n completed stop events m) =
        cyclesFrom (fun m => φ (observe m)) n completed stop events m := by
    intro n
    induction n with
    | zero => exact fun _ _ _ _ => pure_eq _
    | succ n ih =>
        intro completed stop events m
        cases stop with
        | true => exact pure_eq _
        | false =>
            rw [cyclesFrom, cyclesFrom]
            cases m.step with
            | error fault => exact pure_eq _
            | ok result =>
                dsimp only
                rw [bind_eq]
                exact bind_congr fun stop => ih _ _ _ _
  unfold runObserved
  rw [bind_eq, cycles]
  exact bind_congr fun answer => pure_eq _

/-- A stop flag that stays as it is needs no world. -/
theorem runUntil_eq_runObserved (n : Nat) (stop : Bool) (m : Machine C S) : m.runUntil n stop =
    ((m.runObserved (m := StateM Unit) n stop fun _ => pure stop).run ()).run.1 := by
  have natural := runObserved_natural (M := Id) (N := StateM Unit) (fun x => pure x.run)
    (fun _ => rfl) (fun _ _ => rfl) (fun _ => pure stop) n stop m
  change _ = m.runObserved n stop fun _ => pure stop at natural
  rw [← natural]
  rfl

theorem runUntil_outcome {I : Nat → Machine C S → Prop}
    (cycle : ∀ k m, I k m → Outcome E (fun result => I (k + 1) result.1) m.step) (n : Nat)
    (stop : Bool) (holds : I 0 m) :
    Outcome E (fun run => I run.completed run.machine) (m.runUntil n stop) := by
  rw [runUntil_eq_runObserved]
  exact (runObserved_outcome (J := fun _ => True) cycle (fun _ _ _ _ _ => trivial) n stop holds
    trivial).1

end CipherMachine.Machine
