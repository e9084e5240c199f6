import CipherMachine.Machine.Load
import CipherMachine.Proofs.Machine.Simulation

set_option autoImplicit false

/-!
Loading an image that fits gives a machine in the interpreter's initial state: no more is needed of
the gates than that encrypted bits stand for what was encrypted. An encrypted image passes the
checks of its sizes if and only if they are those of the memory's shape.
-/

namespace CipherMachine

open GateM

variable {C S : Type} {G : Gates C S} {reads : Bit C → Bool → Prop} {dry : S → Prop}
  {g : Geometry} {image : Image}

/-- The error of a load whose scheme has run out of randomness, which `dry` allows. -/
def ExhaustedLoad (dry : Prop) (error : LoadError) : Prop :=
  error = .fault .exhausted ∧ dry

theorem Outcome.mapFault {α : Type} {P : α → Prop} {x : Except Fault α} {a b : Prop}
    (outcome : Outcome (Exhausted a) P x) (weaker : a → b) :
    Outcome (ExhaustedLoad b) P (x.mapError LoadError.fault) :=
  outcome.mapError fun _ ⟨exhausted, holds⟩ => ⟨congrArg _ exhausted, weaker holds⟩

namespace Image

/-- What the check lets through: the words fit, and the program counter is an address. -/
theorem checkFits_eq_ok (image : Image) (g : Geometry) : image.checkFits g = .ok () ↔
    image.words.length ≤ g.capacity ∧ image.pc &&& ~~~g.addressMask = 0 := by
  unfold checkFits
  by_cases words : g.capacity < image.words.length
  · simp [words, Nat.not_le.mpr words]
  · by_cases pc : image.pc &&& ~~~g.addressMask = 0 <;> simp [words, pc, Nat.not_lt.mp words]

theorem checkFits_eq (image : Image) (g : Geometry) : image.checkFits g =
    if g.capacity < image.words.length then
      .error (.addressOutOfRange (image.words.length - 1) g.capacity)
    else if g.capacity ≤ image.pc.toNat then .error (.pcOutOfRange image.pc g.addressBits)
    else .ok () := by
  have outside : image.pc &&& ~~~g.addressMask ≠ 0 ↔ g.capacity ≤ image.pc.toNat := by
    rw [ne_eq, and_not_addressMask_eq_zero_iff, Nat.not_lt]
  unfold checkFits
  simp only [outside]

end Image

theorem Interpreter.load_eq_ok (fits : image.checkFits g = .ok ()) :
    Interpreter.load g image =
      .ok ⟨g, (image.words.rightpad g.capacity 0).toArray, .initial image.pc image.ac, 0⟩ := by
  rw [Interpreter.load, Image.memory, fits]
  rfl

theorem Interpreter.cycles_load {it : Interpreter} (loaded : Interpreter.load g image = .ok it) :
    it.cycles = 0 := by
  rw [Interpreter.load] at loaded
  cases memory : image.memory g with
  | error error =>
      rw [memory] at loaded
      cases loaded
  | ok words =>
      rw [memory] at loaded
      cases loaded
      rfl

/-- The encrypted words and registers stand for those of an image. -/
structure EncryptedImage.Shows (reads : Bit C → Bool → Prop) (sealed : EncryptedImage C)
    (g : Geometry) (image : Image) : Prop where
  memory : List.Forall₂ (fun cell word => Word.Holds reads cell 16 word.toNat) sealed.memory
    image.words
  pc : sealed.pc.Holds reads g.addressBits image.pc.toNat
  ac : sealed.ac.Holds reads 16 image.ac.toNat

namespace EncryptedImage

theorem sealed_yields (encrypts : ∀ x, (G.encrypt x).Yields dry (reads · x)) (image : Image)
    (g : Geometry) : (EncryptedImage.sealed G image g).Yields dry (·.Shows reads g image) := by
  have narrow : g.addressBits ≤ 64 := Nat.le_trans g.addressBits_le (by decide)
  refine (Yields.mapM_mem fun word _ =>
    Gates.encryptWord_yields encrypts word.toNat (by decide)).bind fun memory hm => ?_
  refine (Gates.encryptWord_yields encrypts image.pc.toNat narrow).bind fun pc hpc => ?_
  refine (Gates.encryptWord_yields encrypts image.ac.toNat (by decide)).bind fun ac hac => ?_
  exact .pure ⟨hm, hpc, hac⟩

theorem encrypt_shows (encrypts : ∀ x, (G.encrypt x).Yields dry (reads · x))
    (fits : image.checkFits g = .ok ()) (state : S) :
    Outcome (ExhaustedLoad (∃ state, dry state)) (fun result => result.1.Shows reads g image)
      (EncryptedImage.encrypt G.scheme image g state) := by
  have sealing := (sealed_yields encrypts image g ⟨state, {}⟩).mapFault (Exists.intro _)
  unfold EncryptedImage.encrypt
  rw [fits, Gates.ofScheme_scheme]
  exact sealing.bind fun sealed shows => shows

theorem encrypt_outcome (hom : G.Homomorphic reads dry) (fits : image.checkFits g = .ok ())
    (state : S) :
    Outcome (ExhaustedLoad (∃ state, dry state)) (fun result => result.1.Shows reads g image)
      (EncryptedImage.encrypt G.scheme image g state) :=
  encrypt_shows hom.encrypt fits state

theorem find_width_eq_none (words : List (Word C)) (width : Nat) :
    words.zipIdx.find? (fun cell => cell.1.width != width) = none ↔
      ∀ word ∈ words, word.width = width := by
  rw [List.find?_eq_none]
  constructor
  · intro absent word member
    obtain ⟨address, found⟩ := List.mem_iff_getElem?.mp member
    simpa using absent (word, address) (List.mem_zipIdx_iff_getElem?.mpr found)
  · rintro widths ⟨word, address⟩ member
    simpa using widths word (List.fst_mem_of_mem_zipIdx member)

/-- The search for a width ends at the lowest address of a word that has another one. -/
theorem find_width_eq_some {words : List (Word C)} {width address : Nat} {word : Word C} :
    words.zipIdx.find? (fun cell => cell.1.width != width) = some (word, address) ↔
      words[address]? = some word ∧ word.width ≠ width ∧
        ∀ i < address, ∀ other, words[i]? = some other → other.width = width := by
  rw [List.find?_eq_some_iff_getElem]
  simp only [bne_iff_ne, List.getElem_zipIdx, Prod.mk.injEq, List.length_zipIdx, Nat.zero_add]
  constructor
  · rintro ⟨wide, i, bound, ⟨found, rfl⟩, lower⟩
    refine ⟨List.getElem?_eq_some_iff.mpr ⟨bound, found⟩, wide, ?_⟩
    intro i below other held
    obtain ⟨_, rfl⟩ := List.getElem?_eq_some_iff.mp held
    simpa using lower i below
  · rintro ⟨found, wide, lower⟩
    obtain ⟨bound, here⟩ := List.getElem?_eq_some_iff.mp found
    refine ⟨wide, address, bound, ⟨here, rfl⟩, ?_⟩
    intro i below
    simpa using lower i below _ (List.getElem?_eq_getElem (Nat.lt_trans below bound))

/-- What the check lets through: the words fit, and every width is as the shape says. -/
theorem check_eq_ok (sealed : EncryptedImage C) (g : Geometry) : sealed.check g = .ok () ↔
    sealed.memory.length ≤ g.capacity ∧ (∀ word ∈ sealed.memory, word.width = 16) ∧
      sealed.pc.width = g.addressBits ∧ sealed.ac.width = 16 := by
  unfold check
  rw [← find_width_eq_none]
  by_cases words : g.capacity < sealed.memory.length
  · simp [words, Nat.not_le.mpr words]
  · rw [if_neg words]
    cases sealed.memory.zipIdx.find? (fun cell => cell.1.width != 16) with
    | some _ => simp
    | none =>
        by_cases pc : sealed.pc.width = g.addressBits <;> simp [pc, Nat.not_lt.mp words]

theorem Shows.check {sealed : EncryptedImage C} (shows : sealed.Shows reads g image)
    (fits : image.checkFits g = .ok ()) : sealed.check g = .ok () := by
  have bounds := (image.checkFits_eq_ok g).mp fits
  refine (sealed.check_eq_ok g).mpr ⟨?_, ?_, shows.pc.width_eq, shows.ac.width_eq⟩
  · rw [shows.memory.length_eq]
    exact bounds.1
  · intro word member
    obtain ⟨_, _, holds⟩ := exists_of_forall₂ shows.memory member
    exact holds.width_eq

end EncryptedImage

namespace Machine

/-- The state that a machine is loaded into is the interpreter's initial state. -/
theorem initial_yields (encrypts : ∀ x, (G.encrypt x).Yields dry (reads · x))
    {sealed : EncryptedImage C} (shows : sealed.Shows reads g image)
    (fits : image.checkFits g = .ok ()) :
    (initial G g sealed).Yields dry fun (memory, registers, one) =>
      memory.Shows reads g (image.words.rightpad g.capacity 0).toArray ∧
        registers.Shows reads g (.initial image.pc image.ac) ∧ reads one true := by
  have bounds := (image.checkFits_eq_ok g).mp fits
  refine (Yields.mapM_mem (T := fun w value => w.Holds reads 16 value) fun word _ =>
    Gates.encryptWord_yields encrypts word (by decide)).bind fun padding hpadding => ?_
  refine (encrypts false).bind fun carry hcarry => ?_
  refine (encrypts false).bind fun zero hzero => ?_
  refine (encrypts false).bind fun minus hminus => ?_
  refine (Gates.encryptWord_yields encrypts 0 (by decide)).bind fun staging hstaging => ?_
  refine (encrypts true).bind fun one hone => ?_
  refine .pure ⟨⟨rfl, ?_, ?_⟩, ⟨shows.pc, toNat_lt_of_and_not_addressMask bounds.2, shows.ac,
    hcarry, hzero, hminus, hstaging⟩, hone⟩
  · rw [List.size_toArray, List.rightpad, List.length_append, List.length_replicate]
    exact Nat.add_sub_cancel' bounds.1
  · have zeros : List.replicate (g.capacity - sealed.memory.length) 0 =
        (List.replicate (g.capacity - image.words.length) (0 : UInt16)).map UInt16.toNat := by
      rw [shows.memory.length_eq, List.map_replicate]
      rfl
    rw [zeros, List.forall₂_map_right_iff] at hpadding
    exact List.rel_append shows.memory hpadding

theorem load_tracks (encrypts : ∀ x, (G.encrypt x).Yields dry (reads · x)) (config : MachineConfig)
    {sealed : EncryptedImage C} (shows : sealed.Shows reads config.geometry image)
    (fits : image.checkFits config.geometry = .ok ()) (state : S) :
    ∃ it, Interpreter.load config.geometry image = .ok it ∧
      Outcome (ExhaustedLoad (∃ state, dry state)) (fun m => m.gates = G ∧ m.Tracks reads it)
        (load G.scheme config sealed state) := by
  refine ⟨_, Interpreter.load_eq_ok fits, ?_⟩
  have initialized := (initial_yields encrypts shows fits ⟨state, {}⟩).mapFault (Exists.intro _)
  unfold load
  rw [shows.check fits, Gates.ofScheme_scheme]
  exact initialized.bind fun (memory, registers, one) ⟨hm, hr, ho⟩ =>
    ⟨rfl, rfl, hm, hr, ho, rfl⟩

theorem load_outcome (hom : G.Homomorphic reads dry) (config : MachineConfig)
    {sealed : EncryptedImage C} (shows : sealed.Shows reads config.geometry image)
    (fits : image.checkFits config.geometry = .ok ()) (state : S) :
    ∃ it, Interpreter.load config.geometry image = .ok it ∧
      Outcome (ExhaustedLoad (∃ state, dry state)) (fun m => m.gates = G ∧ m.Tracks reads it)
        (load G.scheme config sealed state) :=
  load_tracks hom.encrypt config shows fits state

theorem ofImage_outcome (hom : G.Homomorphic reads dry) (config : MachineConfig)
    (fits : image.checkFits config.geometry = .ok ()) (state : S) :
    ∃ it, Interpreter.load config.geometry image = .ok it ∧
      Outcome (ExhaustedLoad (∃ state, dry state)) (fun m => m.gates = G ∧ m.Tracks reads it)
        (ofImage G.scheme config image state) := by
  refine ⟨_, Interpreter.load_eq_ok fits, ?_⟩
  refine (EncryptedImage.encrypt_outcome hom fits state).bind fun (sealed, next) shows => ?_
  obtain ⟨it, loaded, loading⟩ := load_outcome hom config shows fits next
  obtain rfl := Except.ok.inj ((Interpreter.load_eq_ok fits).symm.trans loaded)
  exact loading

end Machine

end CipherMachine
