import CipherMachine.Proofs.Lockstep.Cycle
import CipherMachine.Proofs.Lockstep.Scheme
import CipherMachine.Proofs.Machine.Simulation

set_option autoImplicit false

/-!
Machines whose state is alike run in lockstep, for any number of cycles.
-/

namespace CipherMachine

open GateM

variable {C S : Type} {ρ : S → S → Prop}

/-- Machines with the same gates and configuration whose state is alike. -/
structure Machine.Alike (ρ : S → S → Prop) (m m' : Machine C S) : Prop where
  gates : m.gates = m'.gates
  config : m.config = m'.config
  memory : m.memory.Alike m'.memory
  registers : m.registers.Alike m'.registers
  one : Bit.Alike m.one m'.one
  session : m.session.Related ρ m'.session
  cycles : m.cycles = m'.cycles

namespace Machine

variable {m m' : Machine C S}

/-- Machines that are alike make their reports, or are both unable to. -/
theorem Alike.reports (alike : m.Alike ρ m') :
    Outcome₂ Eq (fun _ _ => True) m.reports m'.reports := by
  have word16 : ∀ {v w : Word C}, v.Alike w →
      Outcome₂ Eq (fun _ _ => True) (m.gates.word16 v) (m.gates.word16 w) := by
    intro v w both
    unfold Gates.word16 Gates.decryptWord
    rw [both.width_eq]
    by_cases narrow : w.width ≤ 64 <;> simp [narrow, Outcome₂, bind, Except.bind, pure, Except.pure]
  unfold Machine.reports
  rw [← alike.config]
  by_cases traces : m.config.traceRegisters
  · rw [if_pos traces, if_pos traces]
    unfold registersEvent Gates.plainRegisters
    rw [← alike.gates]
    simp only [bind_assoc, pure_bind]
    refine (word16 alike.registers.pc).bind fun _ _ _ => ?_
    refine (word16 alike.registers.ac).bind fun _ _ _ => ?_
    exact (word16 alike.registers.staging).bind fun _ _ _ => trivial
  · rw [if_neg traces, if_neg traces]
    trivial

/-- A step leaves machines alike, or faults in both in the same way. -/
theorem Alike.step (uniform : m.gates.scheme.Uniform ρ) (alike : m.Alike ρ m') :
    Outcome₂ Eq (fun next next' => next.1.gates = m.gates ∧ next.1.Alike ρ next'.1)
      m.step m'.step := by
  have cycle := (Cycle.run_lockstep m.config.schedule uniform.inStep alike.one alike.registers
    alike.memory).metered m.session m'.session alike.session
  have same : m'.cycle = metered (Cycle.run m.gates m.config.schedule m'.one m'.registers
      m'.memory) := by
    rw [Machine.cycle, alike.gates, alike.config]
  rw [← same] at cycle
  change Agree _ _ (m.cycle.exec m.session) _ at cycle
  rcases m.step_cases with
    ⟨fault, _, ran, stepped⟩ | ⟨registers, memory, _, _, session, ran, stepped⟩
  · rcases m'.step_cases with ⟨fault', _, ran', stepped'⟩ | ⟨_, _, _, _, _, ran', _⟩
    · rw [ran, ran'] at cycle
      rw [stepped, stepped']
      exact cycle.1
    · rw [ran, ran'] at cycle
      exact cycle.elim
  · rcases m'.step_cases with
      ⟨_, _, ran', _⟩ | ⟨registers', memory', _, _, session', ran', stepped'⟩
    · rw [ran, ran'] at cycle
      exact cycle.elim
    · rw [ran, ran'] at cycle
      have next : (m.after registers memory session).Alike ρ
          (m'.after registers' memory' session') :=
        ⟨alike.gates, alike.config, cycle.1.2, cycle.1.1, alike.one, cycle.2,
          congrArg (· + 1) alike.cycles⟩
      rw [stepped, stepped']
      exact (next.reports.mono fun _ _ _ => ⟨rfl, next⟩).map

theorem Alike.steps (n : Nat) (uniform : m.gates.scheme.Uniform ρ) (alike : m.Alike ρ m') :
    Outcome₂ Eq (Machine.Alike ρ) (m.steps n) (m'.steps n) := by
  induction n generalizing m m' with
  | zero => exact alike
  | succ n ih =>
      refine (alike.step uniform).bind fun (next, _) (next', _) ⟨gates, alike⟩ => ?_
      exact ih (gates ▸ uniform) alike

end Machine

end CipherMachine
