import CipherMachine.Proofs.Cost.Machine
import CipherMachine.Proofs.Cycle.Metering
import CipherMachine.Proofs.Machine.Cancellation
import CipherMachine.Proofs.Machine.RegisterReports
import CipherMachine.Scheme.Recorded

set_option autoImplicit false

/-!
Events account for every gate.

A cycle reports its phases, in their order, and all of its gates, which are those of its phases. A
run reports its cycles, in their order, and what they report adds up to what the counters gain.
-/

namespace CipherMachine

open GateM

variable {C S : Type}

/-- What a cycle reports: the gates of its phases, all of its gates, and then the registers. -/
structure CycleReport where
  phases : List PhaseCost
  total : GateStats
  registers : List Event

/-- The events of the cycle with the given index, counted from zero. -/
def CycleReport.events (report : CycleReport) (index : Nat) : List Event :=
  report.phases.map (.phaseComplete index) ++ .cycleComplete (index + 1) report.total ::
    report.registers

namespace Machine

/-- A cycle leads from the machine `m` to the machine `next`. The phases come in their order, and
what they report adds up to what the cycle reports. -/
structure Traced (m : Machine C S) (report : CycleReport) (next : Machine C S) : Prop where
  stepped : m.step = .ok (next, report.events m.cycles)
  /-- The registers are reported if and only if they are traced. -/
  registers : if m.config.traceRegisters then
      ∃ event, next.registersEvent = .ok event ∧ report.registers = [event]
    else report.registers = []
  phased : Cycle.Phased m.gates m.config.schedule m.one m.registers m.memory m.session
    next.registers next.memory report.phases next.session
  order : report.phases.map PhaseCost.phase = [.fetch, .decode, .memory, .execute, .writeback]
  whole : (Cycle.run m.gates m.config.schedule m.one m.registers m.memory).Meters m.session
    (next.registers, next.memory, report.phases) report.total next.session
  adds_up : (report.phases.map (·.used.counters)).sum = report.total.counters

variable {m next last : Machine C S}

theorem traced_of_step {happened : List Event} (stepped : m.step = .ok (next, happened)) :
    ∃ report : CycleReport, happened = report.events m.cycles ∧ m.Traced report next := by
  obtain ⟨registers, memory, costs, used, session, reports, cycle, rfl, reported, rfl⟩ :=
    step_eq_ok stepped
  obtain ⟨ran, used_eq⟩ := metered_eq_ok cycle
  have phased := Cycle.phased_of_run ran
  have whole : (Cycle.run m.gates m.config.schedule m.one m.registers m.memory).Meters m.session
      (registers, memory, costs) used session := ⟨ran, phased.rises, used_eq⟩
  refine ⟨⟨costs, used, reports⟩, rfl, stepped, reports_eq_ok _ reported, phased, phased.order,
    whole, ?_⟩
  exact add_left_cancel (phased.adds_up.trans whole.adds_up.symm)

/-- The cycles that lead from one machine to another, each with its cost and the machine after
it. -/
inductive Journey : Machine C S → List (CycleReport × Machine C S) → Machine C S → Prop where
  | done {m : Machine C S} : Journey m [] m
  | cycle {m next last : Machine C S} {report : CycleReport}
      {rest : List (CycleReport × Machine C S)} (traced : m.Traced report next)
      (later : Journey next rest last) :
      Journey m ((report, next) :: rest) last

def journeyEvents (index : Nat) (trace : List (CycleReport × Machine C S)) : List Event :=
  (trace.zipIdx index).flatMap fun (cycle, index) => cycle.1.events index

/-- What the cycles report adds up to what the counters gain. -/
theorem Journey.adds_up {trace : List (CycleReport × Machine C S)}
    (journey : m.Journey trace last) :
    m.stats.counters + (trace.map (·.1.total.counters)).sum = last.stats.counters := by
  induction journey with
  | done => exact add_zero _
  | cycle traced _ ih =>
      rw [List.map_cons, List.sum_cons, ← ih, ← add_assoc]
      exact congrArg (· + _) traced.whole.adds_up

/-- A run of up to `n` cycles has gone through the cycles `trace`, reported each of them and ended,
with a stop event if it was the flag that ended it. -/
structure Reported {σ : Type} (observe : Machine C S → StateM σ Bool) (n : Nat) (stop : Bool)
    (world : σ) (m : Machine C S) (trace : List (CycleReport × Machine C S)) (run : Run C S) :
    Prop where
  journey : m.Journey trace run.machine
  completed : trace.length = run.completed
  ended : run.completed = n ∨
    run.completed < n ∧ (shown observe stop world (trace.map Prod.snd)).1 = true
  events : run.events = .running n :: journeyEvents m.cycles trace ++
    (if run.completed < n then [.stopRequested run.completed] else []) ++
      [.runFinished run.machine.cycles run.machine.stats]
  adds_up : m.stats.counters + (trace.map (·.1.total.counters)).sum = run.machine.stats.counters

section

variable {σ : Type} (observe : Machine C S → StateM σ Bool)

/-- The induction is on the cycles that are left: the events of the first one precede those of the
others, which are counted from the next index on. -/
theorem cyclesFrom_reports (n completed : Nat) (stop : Bool) (events : List Event)
    (m : Machine C S) (world : σ) :
    Outcome (fun _ => True)
      (fun run => ∃ trace, m.Journey trace run.machine ∧
        run.completed = completed + trace.length ∧
        (trace.length = n ∨
          trace.length < n ∧ (shown observe stop world (trace.map Prod.snd)).1 = true) ∧
        run.events = events.reverse ++ journeyEvents m.cycles trace ++
          if trace.length < n then [.stopRequested run.completed] else [])
      ((cyclesFrom observe n completed stop events m).run world).run.1 := by
  induction n generalizing completed stop events m world with
  | zero => exact ⟨[], .done, rfl, .inl rfl, by simp [journeyEvents]⟩
  | succ n ih =>
      cases stop with
      | true =>
          refine ⟨[], .done, rfl, .inr ⟨Nat.succ_pos n, rfl⟩, ?_⟩
          simp [journeyEvents]
      | false =>
          rw [cyclesFrom]
          cases stepped : m.step with
          | error fault => trivial
          | ok result =>
              obtain ⟨next, happened⟩ := result
              obtain ⟨report, rfl, traced⟩ := traced_of_step stepped
              have rest := ih (completed + 1) ((observe next).run world).run.1
                ((report.events m.cycles).reverse ++ events) next
                ((observe next).run world).run.2
              apply rest.mono
              rintro run ⟨trace, journey, count, ended, events⟩
              refine ⟨(report, next) :: trace, .cycle traced journey, ?_, ?_, ?_⟩
              · rw [count, List.length_cons]
                omega
              · exact ended.imp (congrArg Nat.succ) (And.imp_left Nat.succ_lt_succ)
              · rw [events, cycles_step stepped]
                simp [journeyEvents]

theorem runObserved_reports (n : Nat) (stop : Bool) (world : σ) (m : Machine C S) :
    Outcome (fun _ => True) (fun run => ∃ trace, Reported observe n stop world m trace run)
      ((m.runObserved n stop observe).run world).run.1 := by
  have cycles := cyclesFrom_reports observe n 0 stop [.running n] m world
  unfold runObserved
  rw [StateT.run_bind]
  apply Outcome.map
  apply cycles.mono
  rintro run ⟨trace, journey, count, ended, events⟩
  rw [Nat.zero_add] at count
  rw [← count] at ended events
  refine ⟨trace, journey, count.symm, ended, ?_, journey.adds_up⟩
  dsimp only
  rw [events]
  rfl

end

/-- A machine is loaded with nothing counted, and from then on every run reports every cycle in
order, phase by phase: the phases of a cycle add up to the cycle, the cycles to what the counters
gain, and none of the differences is cut off. A machine that reports its registers is loaded and run
as one that does not: the machines that the observer sees, with their ciphertexts, estimates and
counters, and the state of the scheme, with all calls that it may have recorded, are the same, and
so are all other events. -/
theorem tracing_accounts {scheme : Scheme C S} {G : Gates C S}
    (accepted : Gates.ofScheme scheme = .ok G) (config : MachineConfig) {image : EncryptedImage C}
    (fits : image.Fits config.geometry) (state : S) :
    let dry := ∃ state, scheme.Dry state
    Outcome (ExhaustedLoad dry) (fun m => m.Intact G config ∧ m.stats = {} ∧ m.cycles = 0)
        (load scheme config image state) ∧
      (∀ traces, load scheme (config.tracing traces) image state =
        (load scheme config image state).map (·.tracing traces)) ∧
      ∀ {σ : Type} (observe : Machine C S → StateM σ Bool) (m : Machine C S) (n : Nat)
        (stop : Bool) (world : σ), m.Intact G config →
        Outcome (Exhausted dry)
            (fun run => run.machine.Intact G config ∧
              ∃ trace, Reported observe n stop world m trace run)
            ((m.runObserved n stop observe).run world).run.1 ∧
          ∀ traces,
            let untraced :=
              ((m.runObserved n stop fun next => observe (next.tracing traces)).run world).run
            let traced := (((m.tracing traces).runObserved n stop observe).run world).run
            traced.1.map Run.quiet = untraced.1.map (fun run => (run.tracing traces).quiet) ∧
              traced.2 = untraced.2 := by
  obtain rfl := Gates.scheme_of_ofScheme accepted
  intro dry
  refine ⟨?_, load_tracing G.scheme config image state, ?_⟩
  · refine ((load_intact G config image state).and (load_stats G config image state)).imp ?_ ?_
    · rintro error (⟨refused, _⟩ | exhausted)
      · exact absurd fits refused
      · exact exhausted
    · exact fun m ⟨⟨_, intact⟩, counted⟩ => ⟨intact, counted⟩
  · intro σ observe m n stop world intact
    have keeps : (Action.runObserved n stop observe).Keeps G config fun _ => True :=
      fun _ _ _ _ => trivial
    have kept : Outcome (Exhausted dry) (fun run => run.machine.Intact G config)
        ((m.runObserved n stop observe).run world).run.1 :=
      (intact.perform keeps trivial).1.of_map
    exact ⟨kept.and (runObserved_reports observe n stop world m),
      fun traces => runObserved_tracing observe traces n stop intact.shape world⟩

/-- A run that its observer stops after one of three cycles, and the same run without reports of the
registers, which makes the same calls of the scheme. -/
theorem tracing_accounts_stopped :
    let growing : NoiseModel :=
      { fresh := 10, budget := 12, growth := fun _ left right => max left right + 1 }
    let scheme := (Scheme.plain growing).recorded
    let config : MachineConfig := ⟨⟨1, 1, by decide, by decide, by decide⟩, false, true⟩
    let image : EncryptedImage Bool := ⟨[⟨List.replicate 16 ⟨true, 3⟩⟩],
      ⟨List.replicate 2 ⟨true, 5⟩⟩, ⟨List.replicate 16 ⟨false, 6⟩⟩⟩
    let stops : Machine Bool (Recorded Unit) → StateM Unit Bool := fun _ => pure true
    ∃ m, load scheme config image ⟨(), []⟩ = .ok m ∧
      ∃ (run : Run Bool (Recorded Unit)) (report : CycleReport),
        ((m.runObserved 3 false stops).run ()).run.1 = .ok run ∧
        run.events = .running 3 :: report.events 0 ++
          [.stopRequested 1, .runFinished 1 run.machine.stats] ∧
        report.total = run.machine.stats ∧
        ∃ silent, (((m.tracing false).runObserved 3 false stops).run ()).run.1 = .ok silent ∧
          silent.machine.session.state.calls = run.machine.session.state.calls := by
  intro growing scheme config image stops
  let G : Gates Bool (Recorded Unit) := ⟨scheme, by decide⟩
  have never : ¬ ∃ state, scheme.Dry state := by
    rintro ⟨_, ⟨_, none⟩ | ⟨_, none⟩⟩ <;> cases none
  have fits : image.Fits config.geometry := ⟨by decide, by decide, rfl, rfl⟩
  obtain ⟨m, loaded, _⟩ : ∃ m, load scheme config image ⟨(), []⟩ = .ok m ∧ m.Intact G config :=
    load_answers (G := G) config never fits ⟨(), []⟩
  have known := tracing_accounts G.ofScheme_scheme config fits ⟨(), []⟩
  rw [loaded] at known
  obtain ⟨⟨intact, fresh, start⟩, -, runs⟩ := known
  obtain ⟨reports, same⟩ := runs stops m 3 false () intact
  obtain ⟨run, ran, _, trace, reported⟩ := reports.answer fun _ failed => never failed.2
  have completed := runObserved_completed true stops (fun _ _ => rfl) 3 m ()
  rw [ran] at completed
  change run.completed = 1 at completed
  obtain ⟨journey, count, _, events, adds_up⟩ := reported
  obtain ⟨⟨report, next⟩, rfl⟩ := List.length_eq_one_iff.mp (count.trans completed)
  obtain _ | ⟨traced, _ | _⟩ := journey
  have cycles : run.machine.cycles = 1 := by rw [cycles_step traced.stepped, start]
  refine ⟨m, loaded, run, report, ran, ?_, ?_, ?_⟩
  · rw [events, completed, start, cycles]
    simp [journeyEvents]
  · rw [fresh] at adds_up
    apply GateStats.counters_inj
    simpa [GateStats.counters] using adds_up
  · have quiet := (same false).1
    change _ = Except.map _ ((m.runObserved 3 false stops).run ()).run.1 at quiet
    rw [ran] at quiet
    cases silenced : (((m.tracing false).runObserved 3 false stops).run ()).run.1 with
    | error fault =>
        rw [silenced] at quiet
        cases quiet
    | ok silent =>
        rw [silenced] at quiet
        have machine : silent.machine = run.machine.tracing false :=
          congrArg Run.machine (Except.ok.inj quiet)
        refine ⟨silent, rfl, ?_⟩
        rw [machine]
        rfl

end Machine

end CipherMachine
