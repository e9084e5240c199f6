import CipherMachine.Machine.Run
import CipherMachine.Proofs.Outcome

set_option autoImplicit false

/-!
What a step does.

A step runs a cycle and then reports. The cycle may fault, and so may a report: it decrypts the
registers, which must be narrow enough.
-/

namespace CipherMachine

open GateM

variable {C S : Type}

namespace Gates

variable (G : Gates C S)

theorem decryptWord_eq {w : Word C} (narrow : w.width ≤ 64) : G.decryptWord w = .ok (G.value w) :=
  if_pos narrow

theorem word16_eq {w : Word C} (narrow : w.width ≤ 64) :
    G.word16 w = .ok (UInt16.ofNat (G.value w)) := by
  rw [word16, G.decryptWord_eq narrow]
  rfl

end Gates

structure EncryptedRegisters.Narrow (r : EncryptedRegisters C) : Prop where
  pc : r.pc.width ≤ 64
  ac : r.ac.width ≤ 64
  staging : r.staging.width ≤ 64

theorem Gates.plainRegisters_eq (G : Gates C S) {r : EncryptedRegisters C} (narrow : r.Narrow) :
    G.plainRegisters r = .ok
      { pc := UInt16.ofNat (G.value r.pc), ac := UInt16.ofNat (G.value r.ac),
        carry := G.decrypt r.carry, zero := G.decrypt r.zero, minus := G.decrypt r.minus,
        staging := UInt16.ofNat (G.value r.staging) } := by
  rw [plainRegisters, G.word16_eq narrow.pc, G.word16_eq narrow.ac, G.word16_eq narrow.staging]
  rfl

theorem Dump.decrypt_eq {d : Dump C} {G : Gates C S} {memory : List UInt16} {registers : Registers}
    (words : d.memory.mapM G.word16 = .ok memory)
    (shown : G.plainRegisters d.registers = .ok registers) :
    d.decrypt G = .ok ⟨memory, registers, d.stats, d.cycles⟩ := by
  rw [decrypt, words, shown]
  rfl

namespace Machine

variable (m : Machine C S)

theorem reports_eq_ok {reports : List Event} (reported : m.reports = .ok reports) :
    if m.config.traceRegisters then
      ∃ report, m.registersEvent = .ok report ∧ reports = [report]
    else reports = [] := by
  unfold Machine.reports at reported
  by_cases traces : m.config.traceRegisters
  · rw [if_pos traces] at reported ⊢
    cases event : m.registersEvent with
    | error fault =>
        rw [event] at reported
        cases reported
    | ok report =>
        rw [event] at reported
        cases reported
        exact ⟨report, rfl, rfl⟩
  · rw [if_neg traces] at reported ⊢
    exact (Except.ok.inj reported).symm

theorem reports_answer (narrow : m.registers.Narrow) : ∃ reports, m.reports = .ok reports := by
  unfold reports
  split
  · rw [registersEvent, m.gates.plainRegisters_eq narrow]
    exact ⟨_, rfl⟩
  · exact ⟨[], rfl⟩

/-- A step faults with its cycle, or its cycle leaves a machine and the step faults only if that
machine cannot be reported. -/
theorem step_cases :
    (∃ fault session, m.cycle.exec m.session = (.error fault, session) ∧ m.step = .error fault) ∨
      ∃ registers memory costs used session,
        m.cycle.exec m.session = (.ok ((registers, memory, costs), used), session) ∧
          m.step = (m.after registers memory session).reports.map fun reports =>
            (m.after registers memory session, costs.map (Event.phaseComplete m.cycles) ++
              .cycleComplete (m.cycles + 1) used :: reports) := by
  unfold step
  rcases m.cycle.exec m.session with ⟨fault | ⟨⟨registers, memory, costs⟩, used⟩, session⟩
  · exact .inl ⟨fault, session, rfl, rfl⟩
  · refine .inr ⟨registers, memory, costs, used, session, rfl, ?_⟩
    dsimp only
    cases (m.after registers memory session).reports <;> rfl

theorem step_eq_ok {m next : Machine C S} {events : List Event}
    (stepped : m.step = .ok (next, events)) :
    ∃ registers memory costs used session reports,
      m.cycle.exec m.session = (.ok ((registers, memory, costs), used), session) ∧
        next = m.after registers memory session ∧ next.reports = .ok reports ∧
          events = costs.map (Event.phaseComplete m.cycles) ++
            .cycleComplete (m.cycles + 1) used :: reports := by
  rcases m.step_cases with ⟨fault, _, _, failed⟩ |
    ⟨registers, memory, costs, used, session, ran, is⟩
  · rw [failed] at stepped
    cases stepped
  · rw [stepped] at is
    cases reported : (m.after registers memory session).reports with
    | error fault =>
        rw [reported] at is
        cases is
    | ok reports =>
        rw [reported] at is
        cases is
        exact ⟨registers, memory, costs, used, session, reports, ran, rfl, reported, rfl⟩

theorem cycles_step {m next : Machine C S} {events : List Event}
    (stepped : m.step = .ok (next, events)) : next.cycles = m.cycles + 1 := by
  obtain ⟨_, _, _, _, _, _, _, rfl, _⟩ := step_eq_ok stepped
  rfl

end Machine

end CipherMachine
