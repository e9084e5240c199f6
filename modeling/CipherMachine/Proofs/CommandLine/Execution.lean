import CipherMachine.CommandLine.Perform
import CipherMachine.Proofs.Machine.Decryption
import CipherMachine.Proofs.Machine.Runs

set_option autoImplicit false

/-!
Runs that the command line makes, under a time limit or none.

Whenever such a run stops, it leaves the state of the interpreter after as many cycles as the run
has completed.
-/

namespace CipherMachine

variable {C S σ : Type} {reads : Bit C → Bool → Prop} {dry : S → Prop}

/-- An observed run does what the interpreter does in the cycles that it completes. -/
theorem Machine.Tracks.runObserved {m : Machine C S} {it : Interpreter}
    (hom : m.gates.Homomorphic reads dry) (tracks : m.Tracks reads it) (n : Nat) (stop : Bool)
    (observe : Machine C S → StateM σ Bool) (world : σ) :
    Outcome (Exhausted (∃ state, dry state)) (fun run => run.machine.gates = m.gates ∧
        run.machine.Tracks reads (it.run run.completed))
      ((m.runObserved n stop observe).run world).run.1 := by
  have cycle : ∀ (k : Nat) (next : Machine C S),
      next.gates = m.gates ∧ next.Tracks reads (it.run k) →
        Outcome (Exhausted (∃ state, dry state)) (fun result =>
          result.1.gates = m.gates ∧ result.1.Tracks reads (it.run (k + 1))) next.step := by
    rintro k next ⟨gates, tracks⟩
    rw [← gates] at hom ⊢
    apply (tracks.step hom).mono
    rintro ⟨after, _⟩ ⟨same, _, tracks⟩
    rw [Interpreter.run_succ]
    exact ⟨same, tracks⟩
  exact (Machine.runObserved_outcome (J := fun _ => True) cycle (fun _ _ _ _ _ => trivial) n stop
    ⟨rfl, tracks⟩ trivial).1

namespace CommandLine

/-- What a command ends with, from a world that its surroundings are in. -/
def ended {ε α : Type} (command : ExceptT ε (StateM σ) α) (world : σ) : Except ε α × σ :=
  (command.run.run world).run

variable {ε α β : Type} {command : ExceptT ε (StateM σ) α}

theorem ended_bind (next : α → ExceptT ε (StateM σ) β) (world : σ) :
    ended (command >>= next) world =
      match ended command world with
      | (.ok a, world) => ended (next a) world
      | (.error e, world) => (.error e, world) := by
  unfold ended
  rw [ExceptT.run_bind, StateT.run_bind]
  rcases result : command.run.run world with ⟨answer, after⟩
  cases answer <;> rfl

theorem ended_look (x : StateM σ α) (world : σ) :
    ended (liftM x : ExceptT ε (StateM σ) α) world =
      (.ok (x.run world).run.1, (x.run world).run.2) := rfl

/-- The command gives an answer that satisfies `P`, or the error `E`, whatever its surroundings. -/
def Ends (E : ε → Prop) (command : ExceptT ε (StateM σ) α) (P : α → Prop) : Prop :=
  ∀ world, CipherMachine.Outcome E P (ended command world).1

namespace Ends

variable {E : ε → Prop} {P : α → Prop}

theorem bind {next : α → ExceptT ε (StateM σ) β} {R : β → Prop} (first : Ends E command P)
    (rest : ∀ a, P a → Ends E (next a) R) : Ends E (command >>= next) R := by
  intro world
  have answer := first world
  rw [ended_bind]
  rcases result : ended command world with ⟨_ | a, after⟩
  · rw [result] at answer
    exact answer
  · rw [result] at answer
    exact rest a answer after

theorem lift {x : Except ε α} (outcome : CipherMachine.Outcome E P x) :
    Ends E (liftM x : ExceptT ε (StateM σ) α) P :=
  fun _ => outcome

theorem adapt {D : β → Prop} (ends : Ends E command P) {f : ε → β}
    (errors : ∀ e, E e → D (f e)) : Ends D (command.adapt f) P := by
  intro world
  have outcome := ends world
  exact outcome.mapError errors

end Ends

end CommandLine

end CipherMachine
