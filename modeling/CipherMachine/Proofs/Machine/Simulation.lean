import CipherMachine.Proofs.Cycle.Writeback
import CipherMachine.Proofs.Machine.Step

set_option autoImplicit false

/-!
The machine simulates the interpreter.

`Machine.Tracks` is the simulation relation: memory and registers stand for the interpreter's. A
cycle keeps it, so runs of any length do.
-/

namespace CipherMachine

open GateM

namespace Interpreter

theorem run_succ (it : Interpreter) (n : Nat) : it.run (n + 1) = (it.run n).step := by
  induction n generalizing it with
  | zero => rfl
  | succ n ih => exact ih it.step

theorem cycles_run (it : Interpreter) (n : Nat) : (it.run n).cycles = it.cycles + n := by
  induction n with
  | zero => rfl
  | succ n ih =>
      rw [run_succ]
      change (it.run n).cycles + 1 = _
      omega

end Interpreter

variable {C S : Type} {reads : Bit C → Bool → Prop} {dry : S → Prop}

/-- A cycle on encrypted state does what the interpreter's cycle does. -/
theorem Cycle.run_yields {G : Gates C S} (hom : G.Homomorphic reads dry) {schedule : Schedule}
    {one : Bit C} {r : EncryptedRegisters C} {m : Memory C} {it : Interpreter}
    (covers : schedule.Covers it.geometry.capacity)
    (memory : m.Shows reads it.geometry it.memory)
    (registers : r.Shows reads it.geometry it.registers) (ho : reads one true) :
    (Cycle.run G schedule one r m).Yields dry fun (next, cells, _) =>
      next.Shows reads it.geometry it.step.registers ∧
        cells.Shows reads it.geometry it.step.memory := by
  obtain ⟨g, words, p, cycles⟩ := it
  refine (fetch_yields hom covers memory registers ho).metered.bind
    fun ((instruction, m), fetched) ⟨hi, memory⟩ => ?_
  refine (decode_yields hom hi).metered.bind fun (d, decodedCost) decoded => ?_
  refine (memoryStage_yields hom covers decoded memory registers rfl).metered.bind
    fun ((address, loaded, m), staged) ⟨ha, hl, memory⟩ => ?_
  refine (execute_yields hom decoded registers ho hl).metered.bind
    fun (candidates, executed) ⟨he, hn⟩ => ?_
  refine (writeback_yields hom decoded registers ?_ ha hl he hn).metered.bind
    fun (next, written) registers => ?_
  · rw [toNat_effectiveAddress]
    exact Nat.mod_lt _ (Nat.two_pow_pos _)
  · exact .pure ⟨registers, memory⟩

namespace Machine

def steps : Nat → Machine C S → Except Fault (Machine C S)
  | 0, m => .ok m
  | n + 1, m => do
    let (next, _) ← m.step
    next.steps n

theorem cyclesFrom_eq_steps (n completed : Nat) (events : List Event) (m : Machine C S) :
    (Id.run (cyclesFrom (fun _ => pure false) n completed false events m)).map Run.machine =
      m.steps n := by
  induction n generalizing completed events m with
  | zero => rfl
  | succ n ih =>
      rw [steps, cyclesFrom]
      cases m.step with
      | ok result => exact ih (completed + 1) _ result.1
      | error fault => rfl

theorem run_eq_steps (m : Machine C S) (n : Nat) : (m.run n).map Run.machine = m.steps n := by
  rw [← cyclesFrom_eq_steps n 0 [.running n] m]
  change (Except.map _ (Id.run (cyclesFrom _ n 0 false _ m))).map Run.machine = _
  cases Id.run (cyclesFrom (fun _ => pure false) n 0 false [.running n] m) <;> rfl

end Machine

/-- Any configuration's schedule visits the whole memory. -/
theorem MachineConfig.covers_schedule (config : MachineConfig) :
    config.schedule.Covers config.geometry.capacity := by
  unfold schedule
  split
  · exact fun i below => List.mem_range.mpr below
  · trivial

structure Machine.Tracks (reads : Bit C → Bool → Prop) (m : Machine C S) (it : Interpreter) :
    Prop where
  geometry : m.config.geometry = it.geometry
  memory : m.memory.Shows reads it.geometry it.memory
  registers : m.registers.Shows reads it.geometry it.registers
  one : reads m.one true
  cycles : m.cycles = it.cycles

/-- Registers that stand for plaintext ones can be decrypted. -/
theorem EncryptedRegisters.Shows.narrow {r : EncryptedRegisters C}
    {g : Geometry} {p : Registers} (shows : r.Shows reads g p) : r.Narrow := by
  have fits := g.addressBits_le
  have pc := shows.pc.width_eq
  have ac := shows.ac.width_eq
  have staging := shows.staging.width_eq
  constructor <;> omega

namespace Machine

variable {m : Machine C S} {it : Interpreter}

theorem Tracks.cycle (hom : m.gates.Homomorphic reads dry) (tracks : m.Tracks reads it) :
    m.cycle.Yields dry fun ((registers, memory, _), _) =>
      ∀ session, (m.after registers memory session).Tracks reads it.step := by
  have covers := m.config.covers_schedule
  rw [tracks.geometry] at covers
  have cycle := Cycle.run_yields hom covers tracks.memory tracks.registers tracks.one
  apply cycle.metered.mono
  rintro ⟨⟨registers, memory, costs⟩, used⟩ ⟨shows, cells⟩ session
  exact ⟨tracks.geometry, cells, shows, tracks.one, congrArg (· + 1) tracks.cycles⟩

/-- A step keeps the simulation and changes neither gates nor configuration. -/
theorem Tracks.step (hom : m.gates.Homomorphic reads dry) (tracks : m.Tracks reads it) :
    Outcome (Exhausted (∃ state, dry state)) (fun (next, _) => next.gates = m.gates ∧
      next.config = m.config ∧ next.Tracks reads it.step) m.step := by
  have cycle := tracks.cycle hom m.session
  rcases m.step_cases with
    ⟨fault, _, ran, stepped⟩ | ⟨registers, memory, _, _, session, ran, stepped⟩
  · rw [ran] at cycle
    rw [stepped]
    exact ⟨cycle.1, _, cycle.2⟩
  · rw [ran] at cycle
    have next := cycle session
    obtain ⟨reports, reported⟩ :=
      (m.after registers memory session).reports_answer next.registers.narrow
    rw [stepped, reported]
    exact ⟨rfl, rfl, next⟩

theorem Tracks.steps (n : Nat) (hom : m.gates.Homomorphic reads dry) (tracks : m.Tracks reads it) :
    Outcome (Exhausted (∃ state, dry state)) (fun final => final.gates = m.gates ∧
      final.Tracks reads (it.run n)) (m.steps n) := by
  induction n generalizing m it with
  | zero => exact ⟨rfl, tracks⟩
  | succ n ih =>
      refine (tracks.step hom).bind fun (next, _) ⟨gates, _, tracks⟩ => ?_
      rw [← gates] at hom ⊢
      exact ih hom tracks

theorem Tracks.run (n : Nat) (hom : m.gates.Homomorphic reads dry) (tracks : m.Tracks reads it) :
    Outcome (Exhausted (∃ state, dry state)) (fun run => run.machine.gates = m.gates ∧
      run.machine.Tracks reads (it.run n)) (m.run n) := by
  have steps := tracks.steps n hom
  rw [← m.run_eq_steps n] at steps
  exact steps.of_map

end Machine

end CipherMachine
