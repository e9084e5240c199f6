import CipherMachine.Proofs.Tasks
import CipherMachine.Proofs.VisitOrder.Matched
import CipherMachine.Scheme.Recorded

set_option autoImplicit false

/-!
The counters are the calls of the scheme.

A gate counts itself and its refreshes, and makes one call for each that it counts. So what a task
adds to the counters is the tally of the calls that it makes, and every task, answered or refused,
keeps the two equal.
-/

namespace CipherMachine

open GateM

/-- How many calls of each kind there are. Encryptions are not counted. -/
def GateStats.tally (calls : List Call) : GateStats where
  and := calls.count (.gate .and)
  xor := calls.count (.gate .xor)
  not := calls.count (.gate .not)
  refresh := calls.count .refresh

theorem GateStats.counters_tally_append (later earlier : List Call) :
    (tally (later ++ earlier)).counters = (tally earlier).counters + (tally later).counters := by
  simp only [counters, tally, List.count_append, Prod.mk_add_mk, Nat.add_comm]

variable {C S : Type}

/-- The calls made between two sessions, and the counters with them. -/
def Accounted (s t : Session (Recorded S)) : Prop :=
  ∃ made, t.state.calls = made ++ s.state.calls ∧
    t.stats.counters = s.stats.counters + (GateStats.tally made).counters

theorem onward_accounted : Onward (Accounted (S := S)) where
  refl _ := ⟨[], rfl, rfl⟩
  trans := by
    rintro s t u ⟨first, called, counted⟩ ⟨second, called', counted'⟩
    refine ⟨second ++ first, ?_, ?_⟩
    · rw [called', called, List.append_assoc]
    · rw [counted', counted, GateStats.counters_tally_append, add_assoc]

/-- The operation records this call whenever it answers. -/
def Records (call : Call) (operation : Recorded S → Option (C × Recorded S)) : Prop :=
  ∀ s c t, operation s = some (c, t) → t.calls = call :: s.calls

namespace Records

variable {call : Call} {operation : Recorded S → Option (C × Recorded S)} {α : Type}
  {next : C → GateM (Recorded S) α}

/-- The counters change for a call before it is made. In between they are ahead. -/
theorem counted (records : Records call operation) {f : GateStats → GateStats}
    (counts : ∀ s, (f s).counters = s.counters + (GateStats.tally [call]).counters)
    (after : ∀ c, Leads Accounted (next c)) :
    Leads Accounted (do GateM.count f; next (← GateM.call operation)) := by
  intro s
  have counting : (GateM.count f).exec s = (.ok (), ⟨s.state, f s.stats⟩) := rfl
  rw [exec_bind, counting]
  dsimp only
  rw [exec_bind, exec_call]
  cases answer : operation s.state with
  | none => exact .inl rfl
  | some result =>
      obtain ⟨c, state⟩ := result
      refine (after c _).imp_right (onward_accounted.trans ⟨[call], ?_, counts s.stats⟩)
      exact records _ _ _ answer

theorem uncounted (records : Records call operation)
    (free : (GateStats.tally [call]).counters = (0, 0, 0, 0))
    (after : ∀ c, Leads Accounted (next c)) :
    Leads Accounted (GateM.call operation >>= next) := by
  intro s
  rw [exec_bind, exec_call]
  cases answer : operation s.state with
  | none => exact .inl rfl
  | some result =>
      obtain ⟨c, state⟩ := result
      refine (after c _).imp_right (onward_accounted.trans ⟨[call], ?_, ?_⟩)
      · exact records _ _ _ answer
      · rw [free]
        rfl

end Records

namespace Scheme

variable (scheme : Scheme C S)

theorem records_encrypt (x : Bool) : Records .encrypt (scheme.recorded.encrypt x) := by
  intro s c t answer
  obtain ⟨_, _, same⟩ := Option.map_eq_some_iff.mp answer
  cases same
  rfl

theorem records_refresh (c : C) : Records .refresh (scheme.recorded.refresh c) := by
  intro s d t answer
  obtain ⟨_, _, same⟩ := Option.map_eq_some_iff.mp answer
  cases same
  rfl

theorem records_eval (gate : Gate C) :
    Records (.gate gate.kind) fun state => some (scheme.recorded.eval gate state) := by
  intro s d t answer
  cases answer
  rfl

end Scheme

namespace Gates

variable {scheme : Scheme C S} {G : Gates C (Recorded S)} (recorded : G.scheme = scheme.recorded)
include recorded

theorem refresh_accounted (a : Bit C) : (G.refresh a).Leads Accounted := by
  unfold refresh
  rw [recorded]
  refine (scheme.records_refresh a.cipher).counted (fun _ => rfl) fun c => ?_
  exact onward_accounted.pure

theorem fit_accounted (kind : GateKind) (a b : Bit C) : (G.fit kind a b).Leads Accounted := by
  refine onward_accounted.foldlM (fun p side => ?_) _ _
  cases side with
  | left =>
      exact onward_accounted.bind (refresh_accounted recorded p.1) fun _ => onward_accounted.pure
  | right =>
      exact onward_accounted.bind (refresh_accounted recorded p.2) fun _ => onward_accounted.pure

theorem leads_accounted : G.Leads Accounted where
  onward := onward_accounted
  encrypt x := by
    unfold encrypt
    rw [recorded]
    exact (scheme.records_encrypt x).uncounted rfl fun _ => onward_accounted.pure
  not a := by
    have input : (G.fitInput a).Leads Accounted := by
      unfold fitInput
      split
      · exact refresh_accounted recorded a
      · exact onward_accounted.pure
    refine onward_accounted.bind input fun b => ?_
    unfold eval
    rw [recorded]
    exact (scheme.records_eval _).counted (fun _ => rfl) fun _ => onward_accounted.pure
  and a b := by
    refine onward_accounted.bind (fit_accounted recorded .and a b) fun p => ?_
    unfold eval
    rw [recorded]
    exact (scheme.records_eval _).counted (fun _ => rfl) fun _ => onward_accounted.pure
  xor a b := by
    refine onward_accounted.bind (fit_accounted recorded .xor a b) fun p => ?_
    unfold eval
    rw [recorded]
    exact (scheme.records_eval _).counted (fun _ => rfl) fun _ => onward_accounted.pure

end Gates

/-- Wherever a script over new gates comes to, the counters are the tally of the calls that it made.
A misused operation does nothing at all, and any other one answers unless the scheme runs out of
randomness. -/
theorem Gates.stats_eq_tally {scheme : Scheme C S} {G : Gates C (Recorded S)}
    (accepted : ofScheme scheme.recorded = .ok G) :
    (∀ (script : Script C) (state : Recorded S), ∀ point ∈ script.points G 0 ⟨state, {}⟩,
      ∃ made, point.2.state.calls = made ++ state.calls ∧
        point.2.stats = GateStats.tally made) ∧
    ∀ {α : Type} (task : Task C α) (s : Session (Recorded S)),
      (∀ fault, task.misuse = some fault → (task.run G).exec s = (.error fault, s)) ∧
      (task.misuse = none → Outcome (Exhausted (G.scheme.Dry ((task.run G).exec s).2.state))
        (fun _ => True) ((task.run G).exec s).1) := by
  have recorded := scheme_of_ofScheme accepted
  refine ⟨fun script state => ?_, fun task s => ⟨fun fault refused => ?_, fun proper => ?_⟩⟩
  · have step {α : Type} (first : Task C α) {asked : Nat} {s : Session (Recorded S)}
        (start : Accounted ⟨state, {}⟩ s) : ((first.run G).exec s).1 = .error .exhausted ∨
          Accounted ⟨state, {}⟩ ((first.run G).exec s).2 := by
      have gates := first.leads (leads_accounted recorded) (.inr (refresh_accounted recorded))
      exact (gates s).imp_right (onward_accounted.trans start)
    intro point visited
    obtain ⟨made, called, counted⟩ := script.holds_points (I := fun _ => Accounted ⟨state, {}⟩)
      step 0 (onward_accounted.refl _) point visited
    refine ⟨made, called, GateStats.counters_inj ?_⟩
    rw [counted]
    exact zero_add _
  · exact task.refuses_of_misuse G refused s
  · exact task.yields_of_misuse G proper s

/-- A reduction is refused between a negation, whose input has to be refreshed, and a refresh. -/
theorem Gates.stats_eq_tally_interrupted :
    let growing : NoiseModel :=
      { fresh := 10, budget := 12, growth := fun _ left right => max left right + 1 }
    let plain : Gates Bool (Recorded Unit) := ⟨(Scheme.plain growing).recorded, by decide⟩
    let script : Script Bool :=
      .task (.not ⟨true, 12⟩) fun _ => .task (.andAll []) fun _ =>
        .task (.refresh ⟨false, 4⟩) fun _ => .done
    let points := script.points plain 0 ⟨⟨(), []⟩, {}⟩
    points.map (fun point => point.2.state.calls) =
        [[], [.gate .not, .refresh], [.gate .not, .refresh], [.refresh, .gate .not, .refresh]] ∧
      ∀ point ∈ points, ∃ made, point.2.state.calls = made ++ [] ∧
        point.2.stats = GateStats.tally made := by
  intro growing plain script points
  exact ⟨rfl, (stats_eq_tally plain.ofScheme_scheme).1 _ _⟩

end CipherMachine
