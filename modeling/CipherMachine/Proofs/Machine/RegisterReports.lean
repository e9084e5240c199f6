import CipherMachine.Proofs.Machine.Shape

set_option autoImplicit false

/-!
Reporting the registers changes nothing.

A machine that reports its registers after every cycle is loaded and run as one that does not. Its
memory, registers and counters, the state of its scheme and what its observer is shown are the same,
and so are all its other events.
-/

namespace CipherMachine

variable {C S : Type}

/-- The same configuration, with the registers reported or not. -/
def MachineConfig.tracing (config : MachineConfig) (traces : Bool) : MachineConfig :=
  { config with traceRegisters := traces }

def Machine.tracing (m : Machine C S) (traces : Bool) : Machine C S :=
  { m with config := m.config.tracing traces }

def Run.tracing (run : Run C S) (traces : Bool) : Run C S :=
  { run with machine := run.machine.tracing traces }

/-- The events without the reports of the registers. -/
def Event.quiet (events : List Event) : List Event :=
  events.filter fun
    | .registers .. => false
    | _ => true

theorem Event.quiet_append (first second : List Event) :
    quiet (first ++ second) = quiet first ++ quiet second :=
  List.filter_append first second

theorem Event.quiet_reverse (events : List Event) : quiet events.reverse = (quiet events).reverse :=
  List.filter_reverse

def Run.quiet (run : Run C S) : Run C S := { run with events := Event.quiet run.events }

theorem Run.quiet_reverse {events events' : List Event} (same : Event.quiet events' =
    Event.quiet events) (m : Machine C S) (completed : Nat) :
    Run.quiet ⟨m, completed, events'.reverse⟩ = Run.quiet ⟨m, completed, events.reverse⟩ := by
  simp only [Run.quiet, Event.quiet_reverse, same]

theorem Run.quiet_finished {run run' : Run C S} {traces : Bool}
    (same : run'.quiet = (run.tracing traces).quiet) :
    Run.quiet { run' with
      events := run'.events ++ [.runFinished run'.machine.cycles run'.machine.stats] } =
    (Run.tracing { run with
      events := run.events ++ [.runFinished run.machine.cycles run.machine.stats] }
      traces).quiet := by
  obtain ⟨m, completed, events⟩ := run
  obtain ⟨m', completed', events'⟩ := run'
  simp only [Run.quiet, Run.tracing, Run.mk.injEq] at same ⊢
  obtain ⟨rfl, rfl, same⟩ := same
  rw [Event.quiet_append, Event.quiet_append, same]
  exact ⟨rfl, rfl, rfl⟩

namespace Machine

theorem load_tracing (scheme : Scheme C S) (config : MachineConfig) (image : EncryptedImage C)
    (state : S) (traces : Bool) : load scheme (config.tracing traces) image state =
      (load scheme config image state).map (·.tracing traces) := by
  have geometry : (config.tracing traces).geometry = config.geometry := rfl
  unfold load
  rw [geometry]
  cases image.check config.geometry with
  | error error => rfl
  | ok _ =>
      cases Gates.ofScheme scheme with
      | error fault => rfl
      | ok G =>
          dsimp only [bind, Except.bind, Except.mapError]
          rcases (initial G config.geometry image).exec ⟨state, {}⟩ with
            ⟨fault | ⟨memory, registers, one⟩, session⟩ <;> rfl

/-- Nothing is reported after a cycle but the registers. -/
theorem quiet_reports {m : Machine C S} {reports : List Event}
    (reported : m.reports = .ok reports) : Event.quiet reports = [] := by
  have known := m.reports_eq_ok reported
  by_cases traces : m.config.traceRegisters
  · rw [if_pos traces] at known
    obtain ⟨report, event, rfl⟩ := known
    unfold registersEvent at event
    cases plain : m.gates.plainRegisters m.registers with
    | error fault =>
        rw [plain] at event
        cases event
    | ok registers =>
        rw [plain] at event
        cases event
        rfl
  · rw [if_neg traces] at known
    rw [known]
    rfl

theorem quiet_cycle {m : Machine C S} {reports : List Event} (reported : m.reports = .ok reports)
    (phases : List Event) (cycle : Nat) (used : GateStats) :
    Event.quiet (phases ++ .cycleComplete cycle used :: reports) =
      Event.quiet phases ++ [.cycleComplete cycle used] := by
  rw [Event.quiet_append]
  exact congrArg (fun rest => _ ++ .cycleComplete cycle used :: rest) (quiet_reports reported)

/-- A cycle of a machine that reports its registers or does not is the same cycle. In shape, it can
report them. -/
theorem InShape.step_tracing {m : Machine C S} (shape : m.InShape) (traces : Bool) :
    (∃ fault, m.step = .error fault ∧ (m.tracing traces).step = .error fault) ∨
      ∃ next happened happened', next.InShape ∧ m.step = .ok (next, happened) ∧
        (m.tracing traces).step = .ok (next.tracing traces, happened') ∧
          Event.quiet happened' = Event.quiet happened := by
  rcases m.step_cases with
    ⟨fault, _, ran, stepped⟩ | ⟨registers, memory, costs, used, session, ran, stepped⟩
  · rcases (m.tracing traces).step_cases with ⟨_, _, ran', stepped'⟩ | ⟨_, _, _, _, _, ran', _⟩
    · cases ran.symm.trans ran'
      exact .inl ⟨fault, stepped, stepped'⟩
    · cases ran.symm.trans ran'
  · rcases (m.tracing traces).step_cases with ⟨_, _, ran', _⟩ | ⟨_, _, _, _, _, ran', stepped'⟩
    · cases ran.symm.trans ran'
    · cases ran.symm.trans ran'
      have next := shape.after ran
      obtain ⟨reports, reported⟩ := (m.after registers memory session).reports_answer next.narrow
      obtain ⟨reports', reported'⟩ :=
        ((m.tracing traces).after registers memory session).reports_answer next.narrow
      rw [reported] at stepped
      rw [reported'] at stepped'
      refine .inr ⟨_, _, _, next, stepped, stepped', ?_⟩
      rw [quiet_cycle reported, quiet_cycle reported']
      rfl

variable {σ : Type} (observe : Machine C S → StateM σ Bool)

/-- The induction is on the cycles that are left: each of them leads to the same machine, and the
events so far are the same but for reports of the registers. -/
theorem cyclesFrom_tracing (traces : Bool) (n completed : Nat) (stop : Bool)
    {events events' : List Event} (same : Event.quiet events' = Event.quiet events)
    {m : Machine C S} (shape : m.InShape) (world : σ) :
    let untraced := ((cyclesFrom (fun next => observe (next.tracing traces)) n completed stop events
      m).run world).run
    let traced := ((cyclesFrom observe n completed stop events' (m.tracing traces)).run world).run
    traced.1.map Run.quiet = untraced.1.map (fun run => (run.tracing traces).quiet) ∧
      traced.2 = untraced.2 := by
  induction n generalizing completed stop events events' m world with
  | zero =>
      exact ⟨congrArg Except.ok (Run.quiet_reverse same (m.tracing traces) completed), rfl⟩
  | succ n ih =>
      cases stop with
      | true =>
          have same : Event.quiet (.stopRequested completed :: events') =
              Event.quiet (.stopRequested completed :: events) := congrArg (List.cons _) same
          exact ⟨congrArg Except.ok (Run.quiet_reverse same (m.tracing traces) completed), rfl⟩
      | false =>
          rw [cyclesFrom, cyclesFrom]
          obtain ⟨fault, failed, failed'⟩ |
            ⟨next, happened, happened', shape, stepped, stepped', quiet⟩ :=
              shape.step_tracing traces
          · rw [failed, failed']
            exact ⟨rfl, rfl⟩
          · rw [stepped, stepped']
            apply ih _ _ _ shape
            simp only [Event.quiet_append, Event.quiet_reverse, quiet, same]

theorem runObserved_tracing (traces : Bool) (n : Nat) (stop : Bool) {m : Machine C S}
    (shape : m.InShape) (world : σ) :
    let untraced := ((m.runObserved n stop fun next => observe (next.tracing traces)).run world).run
    let traced := (((m.tracing traces).runObserved n stop observe).run world).run
    traced.1.map Run.quiet = untraced.1.map (fun run => (run.tracing traces).quiet) ∧
      traced.2 = untraced.2 := by
  have first : Event.quiet [.running n] = Event.quiet [.running n] := rfl
  obtain ⟨same, left⟩ := cyclesFrom_tracing observe traces n 0 stop first shape world
  unfold runObserved
  rw [StateT.run_bind, StateT.run_bind]
  refine ⟨?_, left⟩
  rcases result : (cyclesFrom (fun next => observe (next.tracing traces)) n 0 stop [.running n]
    m).run world with ⟨answer, after⟩
  rcases result' : (cyclesFrom observe n 0 stop [.running n] (m.tracing traces)).run world with
    ⟨answer', after'⟩
  rw [result, result'] at same
  cases answer with
  | error fault =>
      cases answer' with
      | error fault' => exact same
      | ok run' => cases same
  | ok run =>
      cases answer' with
      | error fault' => cases same
      | ok run' => exact congrArg Except.ok (Run.quiet_finished (Except.ok.inj same))

end Machine

end CipherMachine
