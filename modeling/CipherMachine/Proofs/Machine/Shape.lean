import CipherMachine.Proofs.Gates.Word
import CipherMachine.Proofs.Machine.Loading
import CipherMachine.Proofs.Machine.Runs

set_option autoImplicit false

/-!
The checks of a load suffice for whole runs.

A machine in shape has as many memory words as its configuration says, and every word and register
has its width. Nothing else is needed for a cycle to answer: the faults of a cycle all tell of
widths that do not match. A cycle keeps the shape, so no sequence of actions ends in a fault.
-/

namespace CipherMachine

open GateM

variable {C S σ : Type}

theorem holds_replicate {words : List (Word C)} (widths : ∀ word ∈ words, word.width = 16) :
    List.Forall₂ (fun cell (word : UInt16) => Word.Holds anyBit cell 16 word.toNat) words
      (List.replicate words.length 0) := by
  induction words with
  | nil => exact .nil
  | cons word rest ih =>
      have ⟨first, others⟩ := List.forall_mem_cons.mp widths
      exact .cons (Word.holds_anyBit_iff.mpr first) (ih others)

structure EncryptedImage.Fits (image : EncryptedImage C) (g : Geometry) : Prop where
  words : image.memory.length ≤ g.capacity
  cells : ∀ word ∈ image.memory, word.width = 16
  pc : image.pc.width = g.addressBits
  ac : image.ac.width = 16

theorem EncryptedImage.check_eq_ok_iff_fits (image : EncryptedImage C) (g : Geometry) :
    image.check g = .ok () ↔ image.Fits g := by
  rw [check_eq_ok]
  exact ⟨fun ⟨words, cells, pc, ac⟩ => ⟨words, cells, pc, ac⟩,
    fun ⟨words, cells, pc, ac⟩ => ⟨words, cells, pc, ac⟩⟩

/-- Under the reading that says nothing, an image of the right sizes stands for an empty program of
as many words. -/
theorem EncryptedImage.Fits.shows {image : EncryptedImage C} {g : Geometry} (fits : image.Fits g) :
    image.Shows anyBit g ⟨0, 0, List.replicate image.memory.length 0⟩ ∧
      Image.checkFits ⟨0, 0, List.replicate image.memory.length 0⟩ g = .ok () := by
  constructor
  · exact ⟨holds_replicate fits.cells, Word.holds_anyBit_iff.mpr fits.pc,
      Word.holds_anyBit_iff.mpr fits.ac⟩
  · rw [Image.checkFits_eq_ok, List.length_replicate]
    exact ⟨fits.words, UInt16.zero_and⟩

namespace Machine

/-- The sizes of memory and registers are those that the configuration says. -/
structure InShape (m : Machine C S) : Prop where
  geometry : m.memory.geometry = m.config.geometry
  size : m.memory.cells.length = m.config.geometry.capacity
  cells : ∀ word ∈ m.memory.cells, word.width = 16
  pc : m.registers.pc.width = m.config.geometry.addressBits
  ac : m.registers.ac.width = 16
  staging : m.registers.staging.width = 16

variable {m : Machine C S}

/-- A machine that stands for an interpreter is in shape, whatever its bits stand for. -/
theorem Tracks.inShape {reads : Bit C → Bool → Prop} {it : Interpreter}
    (tracks : m.Tracks reads it) : m.InShape := by
  have ⟨geometry, memory, registers, _, _⟩ := tracks
  rw [← geometry] at memory registers
  refine ⟨memory.geometry, ?_, ?_, registers.pc.width_eq, registers.ac.width_eq,
    registers.staging.width_eq⟩
  · rw [memory.cells.length_eq, Array.length_toList, memory.size]
  · intro word member
    obtain ⟨_, _, holds⟩ := exists_of_forall₂ memory.cells member
    exact holds.width_eq

/-- Under the reading that says nothing, a machine in shape stands for some interpreter. -/
theorem InShape.tracks (shape : m.InShape) : ∃ it, m.Tracks anyBit it := by
  let memory := List.replicate m.memory.cells.length (0 : UInt16)
  refine ⟨⟨m.config.geometry, memory.toArray, .initial 0 0, m.cycles⟩, rfl, ⟨shape.geometry, ?_,
    ?_⟩, ⟨?_, ?_, ?_, trivial, trivial, trivial, ?_⟩, trivial, rfl⟩
  · exact List.size_toArray.trans (List.length_replicate.trans shape.size)
  · exact holds_replicate shape.cells
  · exact Word.holds_anyBit_iff.mpr shape.pc
  · exact Nat.two_pow_pos _
  · exact Word.holds_anyBit_iff.mpr shape.ac
  · exact Word.holds_anyBit_iff.mpr shape.staging

theorem InShape.after (shape : m.InShape) {registers : EncryptedRegisters C} {memory : Memory C}
    {costs : List PhaseCost} {used : GateStats} {session : Session S}
    (ran : m.cycle.exec m.session = (.ok ((registers, memory, costs), used), session)) :
    (m.after registers memory session).InShape := by
  obtain ⟨it, tracks⟩ := shape.tracks
  have cycle := tracks.cycle m.gates.homomorphic_anyBit m.session
  rw [ran] at cycle
  exact (cycle session).inShape

theorem InShape.narrow (shape : m.InShape) : m.registers.Narrow := by
  have fits := m.config.geometry.addressBits_le
  have ⟨_, _, _, pc, ac, staging⟩ := shape
  constructor <;> omega

theorem InShape.decrypts (shape : m.InShape) : ∃ d, m.dump.decrypt m.gates = .ok d := by
  have words : ∀ cells : List (Word C), (∀ word ∈ cells, word.width = 16) →
      ∃ memory, cells.mapM m.gates.word16 = .ok memory := by
    intro cells widths
    induction cells with
    | nil => exact ⟨[], rfl⟩
    | cons word rest ih =>
        have ⟨first, others⟩ := List.forall_mem_cons.mp widths
        obtain ⟨memory, opened⟩ := ih others
        rw [List.mapM_cons, m.gates.word16_eq (by omega), opened]
        exact ⟨_, rfl⟩
  obtain ⟨memory, opened⟩ := words m.memory.cells shape.cells
  exact ⟨_, Dump.decrypt_eq opened (m.gates.plainRegisters_eq shape.narrow)⟩

/-- What can be asked of a machine. Observers, and whoever receives a dump, read and change a
world `σ` of their own. -/
inductive Action (C S σ : Type) where
  | step
  | run (n : Nat)
  | runUntil (n : Nat) (stop : Bool)
  | runObserved (n : Nat) (stop : Bool) (observe : Machine C S → StateM σ Bool)
  | dump (receive : Dump C → StateM σ Unit)
  /-- Decrypts a dump. -/
  | decrypt (receive : PlainDump → StateM σ Unit)

def perform (m : Machine C S) : Action C S σ → StateM σ (Except Fault (Machine C S))
  | .step => return m.step.map Prod.fst
  | .run n => return (m.run n).map Run.machine
  | .runUntil n stop => return (m.runUntil n stop).map Run.machine
  | .runObserved n stop observe => return (← m.runObserved n stop observe).map Run.machine
  | .dump receive => do
    receive m.dump
    return .ok m
  | .decrypt receive =>
    match m.dump.decrypt m.gates with
    | .ok d => do
      receive d
      return .ok m
    | .error fault => return .error fault

/-- The machine that a sequence of actions leaves. It ends with the first fault. -/
def performAll (m : Machine C S) : List (Action C S σ) → StateM σ (Except Fault (Machine C S))
  | [] => return .ok m
  | action :: rest => do
    match ← m.perform action with
    | .ok next => next.performAll rest
    | .error fault => return .error fault

/-- A machine in shape with the given gates and configuration. -/
structure Intact (G : Gates C S) (config : MachineConfig) (m : Machine C S) : Prop where
  gates : m.gates = G
  config : m.config = config
  shape : m.InShape

/-- The action keeps a property of the world as long as it is shown intact machines. -/
def Action.Keeps (G : Gates C S) (config : MachineConfig) (J : σ → Prop) : Action C S σ → Prop
  | .runObserved _ _ observe =>
      ∀ (m : Machine C S) world, m.Intact G config → J world → J ((observe m).run world).run.2
  | .dump receive =>
      ∀ (m : Machine C S) world, m.Intact G config → J world →
        J ((receive m.dump).run world).run.2
  | .decrypt receive =>
      ∀ (m : Machine C S) d world, m.Intact G config → m.dump.decrypt m.gates = .ok d → J world →
        J ((receive d).run world).run.2
  | _ => True

variable {G : Gates C S} {config : MachineConfig} {J : σ → Prop} {world : σ}

/-- A cycle on an intact machine faults only for want of randomness, and leaves an intact one. -/
theorem Intact.step (intact : m.Intact G config) :
    Outcome (Exhausted (∃ state, G.scheme.Dry state)) (fun result => result.1.Intact G config)
      m.step := by
  obtain ⟨rfl, rfl, shape⟩ := intact
  obtain ⟨it, tracks⟩ := shape.tracks
  apply (tracks.step m.gates.homomorphic_anyBit).mono
  rintro ⟨next, _⟩ ⟨gates, config, tracks⟩
  exact ⟨gates, config, tracks.inShape⟩

theorem Intact.perform (intact : m.Intact G config) {action : Action C S σ}
    (keeps : action.Keeps G config J) (kept : J world) :
    let result := ((m.perform action).run world).run
    Outcome (Exhausted (∃ state, G.scheme.Dry state)) (Intact G config) result.1 ∧ J result.2 := by
  have cycle : ∀ (_ : Nat) (m : Machine C S), m.Intact G config →
      Outcome (Exhausted (∃ state, G.scheme.Dry state)) (fun result => result.1.Intact G config)
        m.step :=
    fun _ _ intact => intact.step
  cases action with
  | step => exact ⟨intact.step.map, kept⟩
  | run n => exact ⟨(runUntil_outcome cycle n false intact).map, kept⟩
  | runUntil n stop => exact ⟨(runUntil_outcome cycle n stop intact).map, kept⟩
  | runObserved n stop observe =>
      have run := runObserved_outcome cycle (fun _ m w => keeps m w) n stop intact kept
      exact ⟨run.1.map, run.2⟩
  | dump receive => exact ⟨intact, keeps m world intact kept⟩
  | decrypt receive =>
      obtain ⟨d, decrypted⟩ := intact.shape.decrypts
      unfold Machine.perform
      dsimp only
      rw [decrypted]
      exact ⟨intact, keeps m d world intact decrypted kept⟩

/-- The induction is on the actions: each of them leaves an intact machine to the rest. -/
theorem Intact.performAll (actions : List (Action C S σ)) (intact : m.Intact G config)
    (keeps : ∀ action ∈ actions, action.Keeps G config J) (kept : J world) :
    let result := ((m.performAll actions).run world).run
    Outcome (Exhausted (∃ state, G.scheme.Dry state)) (Intact G config) result.1 ∧ J result.2 := by
  induction actions generalizing m world with
  | nil => exact ⟨intact, kept⟩
  | cons action rest ih =>
      obtain ⟨first, others⟩ := List.forall_mem_cons.mp keeps
      have next := intact.perform first kept
      rw [Machine.performAll, StateT.run_bind]
      rcases result : (m.perform action).run world with ⟨answer, world⟩
      rw [result] at next
      cases answer with
      | ok m => exact ih next.1 others next.2
      | error fault => exact next

theorem load_config (scheme : Scheme C S) (config : MachineConfig) (image : EncryptedImage C)
    (state : S) :
    Outcome (fun _ => True) (fun m => m.config = config) (load scheme config image state) := by
  unfold load
  refine (Outcome.any fun _ => trivial).bind fun _ _ => ?_
  refine (Outcome.any fun _ => trivial).bind fun G _ => ?_
  exact (Outcome.any fun _ => trivial).bind fun _ _ => rfl

/-- An image whose sizes are those of the configuration loads unless randomness runs out. For any
other image the load ends with the error of the check. -/
theorem load_intact (G : Gates C S) (config : MachineConfig) (image : EncryptedImage C)
    (state : S) :
    Outcome (fun error =>
        ¬ image.Fits config.geometry ∧ image.check config.geometry = .error error ∨
          ExhaustedLoad (∃ state, G.scheme.Dry state) error)
      (fun m => image.Fits config.geometry ∧ m.Intact G config)
      (load G.scheme config image state) := by
  by_cases fits : image.Fits config.geometry
  · obtain ⟨shows, words⟩ := fits.shows
    obtain ⟨it, _, loading⟩ := load_outcome G.homomorphic_anyBit config shows words state
    have same := load_config G.scheme config image state
    rcases loaded : load G.scheme config image state with error | m
    · rw [loaded] at loading
      exact .inr loading
    · rw [loaded] at loading same
      exact ⟨fits, loading.1, same, loading.2.inShape⟩
  · have refused := fits
    rw [← EncryptedImage.check_eq_ok_iff_fits] at refused
    unfold load
    cases check : image.check config.geometry with
    | ok _ => exact absurd check refused
    | error error => exact .inl ⟨fits, rfl⟩

/-- Where randomness never runs out, an image of the right sizes loads. -/
theorem load_answers (config : MachineConfig) {image : EncryptedImage C}
    (never : ¬ ∃ state, G.scheme.Dry state) (fits : image.Fits config.geometry) (state : S) :
    ∃ m, load G.scheme config image state = .ok m ∧ m.Intact G config := by
  obtain ⟨m, loaded, _, intact⟩ := (load_intact G config image state).answer fun _ fails =>
    fails.elim (fun refused => refused.1 fits) fun exhausted => never exhausted.2
  exact ⟨m, loaded, intact⟩

/-- An image loads if and only if its sizes are those of the configuration, unless randomness runs
out. From then on no sequence of actions ends in a fault, observers and decryptions included: every
machine is in shape, and every one that is shown to an observer is. -/
theorem load_suffices {scheme : Scheme C S} (accepted : Gates.ofScheme scheme = .ok G)
    (config : MachineConfig) (image : EncryptedImage C) (state : S) :
    let dry := ∃ state, scheme.Dry state
    Outcome (fun error =>
        ¬ image.Fits config.geometry ∧ image.check config.geometry = .error error ∨
          ExhaustedLoad dry error)
      (fun m => image.Fits config.geometry ∧ m.Intact G config)
      (load scheme config image state) ∧
    ∀ {σ : Type} {J : σ → Prop} (m : Machine C S) (actions : List (Action C S σ)) (world : σ),
      m.Intact G config → (∀ action ∈ actions, action.Keeps G config J) → J world →
        let result := ((m.performAll actions).run world).run
        Outcome (Exhausted dry) (Intact G config) result.1 ∧ J result.2 := by
  obtain rfl := Gates.scheme_of_ofScheme accepted
  intro dry
  constructor
  · exact load_intact G config image state
  · intro σ J m actions world intact keeps kept
    exact intact.performAll actions keeps kept

/-- An image of one word for the smallest shape, on a budget that leaves room for two gates, and
observers that keep the sizes they see. -/
theorem load_suffices_smallest :
    let growing : NoiseModel :=
      { fresh := 10, budget := 12, growth := fun _ left right => max left right + 1 }
    let config : MachineConfig := ⟨⟨1, 1, by decide, by decide, by decide⟩, false, true⟩
    let image : EncryptedImage Bool := ⟨[⟨List.replicate 16 ⟨true, 3⟩⟩],
      ⟨List.replicate 2 ⟨true, 5⟩⟩, ⟨List.replicate 16 ⟨false, 6⟩⟩⟩
    ∃ m, load (Scheme.plain growing) config image () = .ok m ∧
      ∃ final sizes, ((m.performAll [.step,
          .runObserved 3 false fun m sizes => (false, m.memory.cells.length :: sizes),
          .dump fun d sizes => ((), d.memory.length :: sizes), .runUntil 7 true,
          .decrypt fun _ sizes => ((), 4 :: sizes), .run 2]).run []).run = (.ok final, sizes) ∧
        final.InShape ∧ ∀ size ∈ sizes, size = 4 := by
  intro growing config image
  let G : Gates Bool Unit := ⟨Scheme.plain growing, by decide⟩
  have never : ¬ ∃ state, G.scheme.Dry state := by
    rintro ⟨_, ⟨_, none⟩ | ⟨_, none⟩⟩ <;> cases none
  have fits : image.Fits config.geometry := ⟨by decide, by decide, rfl, rfl⟩
  -- Nothing but the image's sizes counts from here on.
  clear_value image
  obtain ⟨loading, performs⟩ := load_suffices G.ofScheme_scheme config image ()
  obtain ⟨m, loaded, _, intact⟩ := loading.answer fun _ fails =>
    fails.elim (fun refused => refused.1 fits) fun exhausted => never exhausted.2
  have seen : ∀ (m : Machine Bool Unit) (sizes : List Nat), m.Intact G config →
      (∀ size ∈ sizes, size = 4) → ∀ size ∈ m.memory.cells.length :: sizes, size = 4 := by
    intro m sizes intact kept
    rw [List.forall_mem_cons, intact.shape.size, intact.config]
    exact ⟨rfl, kept⟩
  have opened : ∀ (m : Machine Bool Unit) (d : PlainDump) (sizes : List Nat), m.Intact G config →
      m.dump.decrypt m.gates = .ok d → (∀ size ∈ sizes, size = 4) →
        ∀ size ∈ 4 :: sizes, size = 4 :=
    fun _ _ _ _ _ kept => List.forall_mem_cons.mpr ⟨rfl, kept⟩
  have performed := performs (J := fun sizes => ∀ size ∈ sizes, size = 4) m [.step,
    .runObserved 3 false fun m sizes => (false, m.memory.cells.length :: sizes),
    .dump fun d sizes => ((), d.memory.length :: sizes), .runUntil 7 true,
    .decrypt fun _ sizes => ((), 4 :: sizes), .run 2] [] intact ?_ (List.forall_mem_nil _)
  · obtain ⟨final, left, intact⟩ := performed.1.answer fun _ exhausted => never exhausted.2
    exact ⟨m, loaded, final, _, Prod.ext left rfl, intact.shape, performed.2⟩
  · simp only [List.forall_mem_cons]
    exact ⟨trivial, seen, seen, trivial, opened, trivial, List.forall_mem_nil _⟩

end Machine

end CipherMachine
