import CipherMachine.Proofs.IntegerCorrectness
import CipherMachine.Proofs.Lockstep.Loading
import CipherMachine.Random.ChaCha

set_option autoImplicit false

/-!
Runs reveal nothing of the programs and data that they work on.

What can be seen of a machine without its keys is the calls of its scheme, the estimates of its
bits and its counters. Two images that fit the memory look the same, from encryption through any
number of cycles: loading is uniform, and cycles on machines that are alike run in lockstep.
-/

namespace CipherMachine

open GateM

variable {C S : Type} {scheme : Scheme C S} {ρ : S → S → Prop} {image image' : Image}

def EncryptedRegisters.noises (r : EncryptedRegisters C) : List (List Nat) :=
  [r.pc.noises, r.ac.noises, [r.carry.noise, r.zero.noise, r.minus.noise], r.staging.noises]

namespace Machine

/-- What can be seen of a machine: the calls made so far, the estimate of every bit in memory and
registers, the gates counted and the cycles. -/
structure View where
  calls : List Call
  memory : List (List Nat)
  registers : List (List Nat)
  stats : GateStats
  cycles : Nat

def view (m : Machine C (Recorded S)) : View :=
  ⟨m.session.state.calls, m.memory.cells.map Word.noises, m.registers.noises, m.stats, m.cycles⟩

/-- Encrypts an image, loads it and runs it for exactly `n` cycles, recording all calls. Returns
the machine as it was loaded and as the run leaves it. -/
def launch (scheme : Scheme C S) (config : MachineConfig) (image : Image) (n : Nat) (s : S) :
    Except LoadError (Machine C (Recorded S) × Machine C (Recorded S)) := do
  let loaded ← ofImage scheme.recorded config image ⟨s, []⟩
  let run ← (loaded.run n).mapError LoadError.fault
  return (loaded, run.machine)

/-- Two runs that look the same, leave related states of the scheme and encrypt nothing once they
have been loaded. -/
structure Indistinguishable (ρ : S → S → Prop)
    (first second : Machine C (Recorded S) × Machine C (Recorded S)) : Prop where
  loaded : first.1.view = second.1.view
  final : first.2.view = second.2.view
  state : ρ first.2.session.state.inner second.2.session.state.inner
  evaluates : first.2.session.state.OnlyEvaluates first.1.session.state.calls

theorem Alike.view_eq {m m' : Machine C (Recorded S)} (alike : m.Alike (Recorded.Related ρ) m') :
    m.view = m'.view := by
  have word : ∀ {v w : Word C}, v.Alike w → v.noises = w.noises := Word.alike_iff.mp
  have cells : m.memory.cells.map Word.noises = m'.memory.cells.map Word.noises :=
    (forall₂_map_eq_iff Word.noises).mp (alike.memory.cells.imp fun _ _ => word)
  have registers : m.registers.noises = m'.registers.noises := by
    unfold EncryptedRegisters.noises
    rw [word alike.registers.pc, word alike.registers.ac, word alike.registers.staging,
      show m.registers.carry.noise = m'.registers.carry.noise from alike.registers.carry,
      show m.registers.zero.noise = m'.registers.zero.noise from alike.registers.zero,
      show m.registers.minus.noise = m'.registers.minus.noise from alike.registers.minus]
  unfold view stats
  rw [alike.session.2.2, cells, registers, alike.session.1, alike.cycles]

/-- From here on, machines that are alike evaluate. -/
theorem Alike.evaluating {m m' : Machine C (Recorded S)}
    (alike : m.Alike (Recorded.Related ρ) m') :
    m.Alike (Recorded.Evaluating ρ m.session.state.calls) m' :=
  { alike with
    session := ⟨alike.session.1, alike.session.2, [], rfl, List.not_mem_nil⟩ }

theorem Alike.related {base : List Call} {m m' : Machine C (Recorded S)}
    (alike : m.Alike (Recorded.Evaluating ρ base) m') : m.Alike (Recorded.Related ρ) m' :=
  { alike with session := ⟨alike.session.1, alike.session.2.1⟩ }

/-- Two images run alike on a scheme that treats ciphertexts alike. -/
theorem launch_lockstep (workable : scheme.noise.Workable) (uniform : scheme.Uniform ρ)
    (encryption : scheme.UniformEncryption ρ) (euclidean : ∀ {a b c}, ρ a c → ρ b c → ρ a b)
    (config : MachineConfig) (fits : image.checkFits config.geometry = .ok ())
    (fits' : image'.checkFits config.geometry = .ok ()) (n : Nat) (s s' t : S) (related : ρ s t)
    (related' : ρ s' t) :
    Outcome₂ Eq (Indistinguishable ρ) (launch scheme config image n s)
      (launch scheme config image' n s') := by
  have start : Recorded.Related ρ ⟨s, []⟩ ⟨t, []⟩ := ⟨related, rfl⟩
  have start' : Recorded.Related ρ ⟨s', []⟩ ⟨t, []⟩ := ⟨related', rfl⟩
  have loading := ofImage_lockstep (G := ⟨scheme.recorded, workable⟩) encryption.recorded
    (fun left right => ⟨euclidean left.1 right.1, left.2.trans right.2.symm⟩) config fits fits'
    start start'
  refine loading.bind fun m m' ⟨gates, alike⟩ => ?_
  have recorded := uniform.recorded m.session.state.calls
  have steps := alike.evaluating.steps n (by rw [gates]; exact recorded)
  rw [← m.run_eq_steps, ← m'.run_eq_steps] at steps
  refine (steps.of_map.mapError fun _ _ => congrArg LoadError.fault).bind fun run run' final => ?_
  exact ⟨alike.view_eq, final.related.view_eq, final.session.2.1.1, final.session.2.2⟩

/-- A run of an image that fits fails only for want of randomness. -/
theorem launch_outcome {reads : Bit C → Bool → Prop} {dry : Recorded S → Prop}
    {workable : scheme.recorded.noise.Workable}
    (hom : Gates.Homomorphic ⟨scheme.recorded, workable⟩ reads dry) (config : MachineConfig)
    (fits : image.checkFits config.geometry = .ok ()) (n : Nat) (s : S) :
    Outcome (ExhaustedLoad (∃ state, dry state)) (fun _ => True)
      (launch scheme config image n s) := by
  obtain ⟨it, _, loading⟩ := ofImage_outcome hom config fits ⟨s, []⟩
  refine loading.bind fun m ⟨gates, tracks⟩ => ?_
  rw [← gates] at hom
  exact ((tracks.run n hom).mapFault id).bind fun _ _ => trivial

end Machine

/-- Nothing is known of ciphertexts, and no call fails. -/
theorem Scheme.Answers.preserves (answers : scheme.Answers) :
    scheme.Preserves (fun _ _ _ => True) fun _ => False where
  encrypt x s := by
    cases answer : scheme.encrypt x s with
    | none => exact answers.encrypt x s answer
    | some _ => trivial
  refresh {c _ _} _ s := by
    cases answer : scheme.refresh c s with
    | none => exact answers.refresh c s answer
    | some _ => trivial
  not _ _ _ := trivial
  and _ _ _ _ := trivial
  xor _ _ _ _ := trivial

theorem Scheme.answers_plain (noise : NoiseModel) : (Scheme.plain noise).Answers where
  encrypt _ _ := Option.some_ne_none _
  refresh _ _ := Option.some_ne_none _

namespace IntegerKeys

variable {R : Type} (k : IntegerKeys) (src : Source R)

/-- An encryption draws the same randomness for either bit. -/
theorem encrypt_paired (x y : Bool) (r : R) :
    Paired Eq (k.encrypt src x r) (k.encrypt src y r) := by
  unfold encrypt
  cases src.below k.quotientBound r with
  | none => trivial
  | some _ => rfl

theorem uniform : (k.scheme src).Uniform Eq where
  eval _ same := same
  refresh _ _ := by
    rintro r _ rfl
    exact k.encrypt_paired src _ _ r

theorem uniformEncryption : (k.scheme src).UniformEncryption Eq := by
  rintro x y r _ rfl
  exact k.encrypt_paired src x y r

end IntegerKeys

/-- Any two images that fit run alike. A scheme that always answers makes the same calls, gives
the same estimates and counts the same gates for both, and no call after loading is an encryption.
So does the integer scheme, whose generator moreover is in the same state after any number of
cycles, or has run dry at the same call. -/
theorem Machine.runs_oblivious {C S R : Type} (config : MachineConfig) (image image' : Image)
    (fits : image.checkFits config.geometry = .ok ())
    (fits' : image'.checkFits config.geometry = .ok ()) (n : Nat)
    (scheme : Scheme C S) (workable : scheme.noise.Workable) (answers : scheme.Answers)
    (s s' : S) (params : IntegerParams) (valid : params.Valid) (src : Source R) (seed start : R) :
    (∃ first second, launch scheme config image n s = .ok first ∧
      launch scheme config image' n s' = .ok second ∧
        Indistinguishable (fun _ _ => True) first second) ∧
      let k := (IntegerKeys.generate params valid src seed).1
      Outcome₂ (fun error error' => error = error' ∧
          ExhaustedLoad (∃ r, src.below k.quotientBound r = none) error)
        (Indistinguishable Eq) (launch (k.scheme src) config image n start)
        (launch (k.scheme src) config image' n start) := by
  constructor
  · have alike := launch_lockstep workable answers.uniform answers.uniformEncryption
      (fun _ _ => trivial) config fits fits' n s s' s trivial trivial
    have hom := Gates.homomorphic (G := ⟨scheme.recorded, workable⟩) answers.preserves.recorded
    obtain ⟨first, launched, _⟩ := (launch_outcome hom config fits n s).answer
      fun _ holds => holds.2.elim fun _ => id
    obtain ⟨second, launched', same⟩ := alike.answers launched
    exact ⟨first, second, launched, launched', same⟩
  · intro k
    have workable := IntegerParams.workable_noiseModel k.valid
    have alike := launch_lockstep workable (k.uniform src) (k.uniformEncryption src)
      (fun left right => left.trans right.symm) config fits fits' n start start start rfl rfl
    have law := ((IntegerKeys.generate_sound params valid src seed).preserves src).recorded
    have hom := Gates.homomorphic (G := ⟨(k.scheme src).recorded, workable⟩) law
    have fails := (launch_outcome hom config fits n start).imp (D := ExhaustedLoad
      (∃ r, src.below k.quotientBound r = none)) (fun _ holds => ⟨holds.1, ?_⟩) fun _ => id
    · exact alike.restrict fails
    · obtain ⟨state, dry⟩ := holds.2
      exact ⟨state.inner, dry⟩

/-- A program that overwrites itself and an empty one look the same. -/
theorem Machine.runs_oblivious_store :
    (∃ first second,
      launch (Scheme.plain { fresh := 3, budget := 6 }) {} ⟨0, 0x1234, [0x0F00, 0x0B21]⟩ 5 () =
          .ok first ∧
        launch (Scheme.plain { fresh := 3, budget := 6 }) {} ⟨9, 0, []⟩ 5 () = .ok second ∧
          Indistinguishable (fun _ _ => True) first second) ∧
      let generated := IntegerKeys.generate ⟨1, 5, 6⟩ ⟨by decide, by decide, by decide⟩
        ChaCha.source (ChaCha.ofSeed (List.replicate 32 7))
      let scheme := generated.1.scheme ChaCha.source
      Outcome₂ (fun error error' => error = error' ∧ ExhaustedLoad
          (∃ r, ChaCha.source.below generated.1.quotientBound r = none) error)
        (Indistinguishable Eq) (launch scheme {} ⟨0, 0x1234, [0x0F00, 0x0B21]⟩ 5 generated.2)
        (launch scheme {} ⟨9, 0, []⟩ 5 generated.2) :=
  runs_oblivious {} _ _ rfl rfl 5 _ (by decide) (Scheme.answers_plain _) () () _ _ _ _ _

end CipherMachine
