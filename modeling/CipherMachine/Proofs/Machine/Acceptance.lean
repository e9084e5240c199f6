import CipherMachine.Proofs.IntegerCorrectness
import CipherMachine.Proofs.Machine.Decryption
import CipherMachine.Proofs.Machine.Shape
import CipherMachine.Proofs.PlainBit
import CipherMachine.Random.ChaCha

set_option autoImplicit false

/-!
The loaders accept the same images.

The interpreter checks an image by its numbers and pads memory with zeros. The machine checks an
encrypted image by its widths and pads memory with encryptions of zero. An image passes the one
check if and only if what it is encrypted to passes the other one, and both memories are then the
same. An encrypted image from elsewhere is refused by the first check that it fails.
-/

namespace CipherMachine

open GateM

variable {C S : Type}

/-- A fresh ciphertext decrypts to what was encrypted. -/
def Scheme.Faithful (scheme : Scheme C S) : Prop :=
  ∀ x s cipher t, scheme.encrypt x s = some (cipher, t) → scheme.decrypt cipher = x

/-- A scheme is faithful if decryption opens what its operations preserve. -/
theorem Scheme.Preserves.faithful {scheme : Scheme C S} {V : C → Nat → Bool → Prop}
    {dry : S → Prop} (law : scheme.Preserves V dry)
    (opens : ∀ {c n x}, V c n x → scheme.decrypt c = x) : scheme.Faithful := by
  intro x s cipher t encrypted
  have valid := law.encrypt x s
  rw [encrypted] at valid
  exact opens valid

theorem Scheme.PlainBit.faithful {scheme : Scheme Bool S} (plain : scheme.PlainBit) :
    scheme.Faithful :=
  plain.preserves.faithful fun same => (plain.decrypt _).trans same

theorem IntegerKeys.Sound.faithful {R : Type} {k : IntegerKeys} (sound : k.Sound)
    (src : Source R) : (k.scheme src).Faithful :=
  (sound.preserves src).faithful fun encrypts => encrypts.decrypts

/-- What bits decrypt to, if fresh ciphertexts decrypt to what was encrypted. -/
def Gates.decrypted (G : Gates C S) (bit : Bit C) (x : Bool) : Prop :=
  G.scheme.Faithful → G.decrypt bit = x

theorem Gates.encrypt_decrypted (G : Gates C S) (x : Bool) :
    (G.encrypt x).Yields G.scheme.Dry (G.decrypted · x) := by
  have law : ∀ s, Gives (G.scheme.Dry s) (fun cipher => G.scheme.Faithful →
      G.scheme.decrypt cipher = x) (G.scheme.encrypt x s) := by
    intro s
    cases answer : G.scheme.encrypt x s with
    | none => exact .inl ⟨x, answer⟩
    | some result => exact fun faithful => faithful x s result.1 result.2 answer
  exact (Yields.call law).bind fun cipher decrypts => .pure decrypts

namespace EncryptedImage

variable {sealed : EncryptedImage C} {g : Geometry} {error : LoadError}

/-- The first check that an encrypted image fails, in the order of the size, the words from the
lowest address on, the program counter and the accumulator, and the error that names it. -/
inductive Rejected (sealed : EncryptedImage C) (g : Geometry) : LoadError → Prop where
  | size (exceeds : g.capacity < sealed.memory.length) :
      Rejected sealed g (.imageTooLarge sealed.memory.length g.capacity)
  | word {address : Nat} {word : Word C} (size : sealed.memory.length ≤ g.capacity)
      (found : sealed.memory[address]? = some word) (width : word.width ≠ 16)
      (lowest : ∀ i < address, ∀ other, sealed.memory[i]? = some other → other.width = 16) :
      Rejected sealed g (.wordWidth address word.width 16)
  | pc (size : sealed.memory.length ≤ g.capacity) (words : ∀ word ∈ sealed.memory, word.width = 16)
      (width : sealed.pc.width ≠ g.addressBits) :
      Rejected sealed g (.pcWidth sealed.pc.width g.addressBits)
  | ac (size : sealed.memory.length ≤ g.capacity) (words : ∀ word ∈ sealed.memory, word.width = 16)
      (pc : sealed.pc.width = g.addressBits) (width : sealed.ac.width ≠ 16) :
      Rejected sealed g (.acWidth sealed.ac.width 16)

theorem check_eq_error_iff : sealed.check g = .error error ↔ sealed.Rejected g error := by
  unfold check
  constructor
  · intro failed
    by_cases size : g.capacity < sealed.memory.length
    · rw [if_pos size] at failed
      obtain rfl := Except.error.inj failed
      exact .size size
    · rw [if_neg size] at failed
      have within := Nat.not_lt.mp size
      cases search : sealed.memory.zipIdx.find? (fun cell => cell.1.width != 16) with
      | some cell =>
          rw [search] at failed
          obtain rfl := Except.error.inj failed
          obtain ⟨found, width, lowest⟩ := find_width_eq_some.mp search
          exact .word within found width lowest
      | none =>
          have words := (find_width_eq_none _ _).mp search
          rw [search] at failed
          dsimp only at failed
          by_cases pc : sealed.pc.width = g.addressBits
          · rw [if_neg (not_not_intro pc)] at failed
            by_cases ac : sealed.ac.width = 16
            · rw [if_neg (not_not_intro ac)] at failed
              cases failed
            · rw [if_pos ac] at failed
              obtain rfl := Except.error.inj failed
              exact .ac within words pc ac
          · rw [if_pos pc] at failed
            obtain rfl := Except.error.inj failed
            exact .pc within words pc
  · intro rejected
    cases rejected with
    | size exceeds => rw [if_pos exceeds]
    | word size found width lowest =>
        rw [if_neg (Nat.not_lt.mpr size), find_width_eq_some.mpr ⟨found, width, lowest⟩]
    | pc size words width =>
        rw [if_neg (Nat.not_lt.mpr size), (find_width_eq_none _ _).mpr words]
        exact if_pos width
    | ac size words pc width =>
        rw [if_neg (Nat.not_lt.mpr size), (find_width_eq_none _ _).mpr words]
        exact (if_neg (not_not_intro pc)).trans (if_pos width)

end EncryptedImage

/-- The interpreter, its memory and the encryption refuse the image with the same error. -/
structure Image.Refused (image : Image) (scheme : Scheme C S) (g : Geometry) (error : FitError) :
    Prop where
  memory : image.memory g = .error error
  interpreter : Interpreter.load g image = .error error
  encryption : ∀ state, EncryptedImage.encrypt scheme image g state = .error (.image error)

theorem Image.refused_of_checkFits {image : Image} {g : Geometry} {error : FitError}
    (scheme : Scheme C S) (failed : image.checkFits g = .error error) :
    image.Refused scheme g error where
  memory := by
    rw [Image.memory, failed]
    rfl
  interpreter := by
    rw [Interpreter.load, Image.memory, failed]
    rfl
  encryption state := by
    rw [EncryptedImage.encrypt, failed]
    rfl

namespace Machine

/-- The machine is ready to run as the interpreter is: it decrypts to the interpreter's state
before any cycle, and runs for any number of cycles. -/
structure Ready (G : Gates C S) (config : MachineConfig) (it : Interpreter) (m : Machine C S) :
    Prop where
  intact : m.Intact G config
  start : m.cycles = 0
  decrypts : G.scheme.Faithful → m.Shows it
  runs : ∀ n, Outcome (Exhausted (∃ state, G.scheme.Dry state)) (fun run => run.machine.cycles = n)
    (m.run n)

theorem InShape.run_cycles {m : Machine C S} (shape : m.InShape) (n : Nat) :
    Outcome (Exhausted (∃ state, m.gates.scheme.Dry state))
      (fun run => run.machine.cycles = m.cycles + n) (m.run n) := by
  obtain ⟨it, tracks⟩ := shape.tracks
  apply (tracks.run n m.gates.homomorphic_anyBit).mono
  rintro run ⟨_, after⟩
  rw [after.cycles, Interpreter.cycles_run, tracks.cycles]

variable {G : Gates C S} {image : Image}

/-- A machine whose bits decrypt to the interpreter's is ready. -/
theorem Tracks.ready {m : Machine C S} {it : Interpreter}
    (tracks : m.Tracks m.gates.decrypted it) (start : it.cycles = 0) :
    m.Ready m.gates m.config it where
  intact := ⟨rfl, rfl, tracks.inShape⟩
  start := tracks.cycles.trans start
  decrypts faithful := tracks.dump_shows fun decrypts => decrypts faithful
  runs n := by
    have count := tracks.inShape.run_cycles n
    rw [tracks.cycles, start] at count
    simpa only [Nat.zero_add] using count

/-- An image that fits is encrypted, and what it is encrypted to is loaded, by whatever state of the
scheme. -/
theorem encrypt_ready (config : MachineConfig) {it : Interpreter}
    (fits : image.checkFits config.geometry = .ok ())
    (interpreted : Interpreter.load config.geometry image = .ok it) (state : S) :
    Outcome (ExhaustedLoad (∃ state, G.scheme.Dry state))
      (fun (sealed, _) => ∀ next, Outcome (ExhaustedLoad (∃ state, G.scheme.Dry state))
        (Ready G config it) (load G.scheme config sealed next))
      (EncryptedImage.encrypt G.scheme image config.geometry state) := by
  apply (EncryptedImage.encrypt_shows G.encrypt_decrypted fits state).mono
  rintro ⟨sealed, _⟩ shows next
  obtain ⟨it', loaded, loading⟩ := load_tracks G.encrypt_decrypted config shows fits next
  obtain rfl := Except.ok.inj (interpreted.symm.trans loaded)
  apply (loading.and (load_config G.scheme config sealed next)).mono
  rintro m ⟨⟨rfl, tracks⟩, rfl⟩
  exact tracks.ready (Interpreter.cycles_load interpreted)

theorem load_of_rejected {sealed : EncryptedImage C} {config : MachineConfig} {error : LoadError}
    (scheme : Scheme C S) (rejected : sealed.Rejected config.geometry error) (state : S) :
    load scheme config sealed state = .error error := by
  rw [load, EncryptedImage.check_eq_error_iff.mpr rejected]
  rfl

/-- The interpreter, its memory and the encryption all accept an image or all refuse it with the
same error, that of too many words before that of a program counter that is no address. An image
that they accept is loaded into a machine that is ready to run. A load refuses an encrypted image
with the error of the first check that it fails, and none whose sizes fit. Besides that, randomness
may run out. -/
theorem loaders_agree {scheme : Scheme C S} (accepted : Gates.ofScheme scheme = .ok G)
    (config : MachineConfig) :
    let g := config.geometry
    let exhausted := ExhaustedLoad (∃ state, scheme.Dry state)
    (∀ image : Image,
      (g.capacity < image.words.length →
        image.Refused scheme g (.addressOutOfRange (image.words.length - 1) g.capacity)) ∧
      (image.words.length ≤ g.capacity → g.capacity ≤ image.pc.toNat →
        image.Refused scheme g (.pcOutOfRange image.pc g.addressBits)) ∧
      (image.words.length ≤ g.capacity → image.pc.toNat < g.capacity →
        ∃ it, image.memory g = .ok it.memory.toList ∧ Interpreter.load g image = .ok it ∧
          ∀ state, Outcome exhausted
            (fun (sealed, _) => ∀ next,
              Outcome exhausted (Ready G config it) (load scheme config sealed next))
            (EncryptedImage.encrypt scheme image g state))) ∧
    ∀ (sealed : EncryptedImage C) (state : S),
      (∀ error, sealed.Rejected g error → load scheme config sealed state = .error error) ∧
        Outcome (fun error => sealed.Rejected g error ∨ exhausted error)
          (fun m => sealed.Fits g ∧ m.Intact G config) (load scheme config sealed state) := by
  obtain rfl := Gates.scheme_of_ofScheme accepted
  intro g exhausted
  refine ⟨fun image => ⟨?_, ?_, ?_⟩, fun sealed state => ⟨?_, ?_⟩⟩
  · intro exceeds
    apply Image.refused_of_checkFits
    rw [Image.checkFits_eq, if_pos exceeds]
  · intro within outside
    apply Image.refused_of_checkFits
    rw [Image.checkFits_eq, if_neg (Nat.not_lt.mpr within), if_pos outside]
  · intro within inside
    have fits : image.checkFits g = .ok () := by
      rw [Image.checkFits_eq, if_neg (Nat.not_lt.mpr within), if_neg (Nat.not_le.mpr inside)]
    have interpreted := Interpreter.load_eq_ok fits
    refine ⟨_, ?_, interpreted, encrypt_ready config fits interpreted⟩
    rw [Image.memory, fits]
    rfl
  · intro error rejected
    exact load_of_rejected G.scheme rejected state
  · apply (load_intact G config sealed state).imp ?_ fun _ => id
    rintro error (⟨_, failed⟩ | ran)
    · exact .inl (EncryptedImage.check_eq_error_iff.mp failed)
    · exact .inr ran

/-- Images for the smallest shape: two that are refused, one that is ready to run on plain bits and
under the smallest keys, and an encrypted one with more than one wrong width. -/
theorem loaders_agree_smallest :
    let growing : NoiseModel :=
      { fresh := 10, budget := 12, growth := fun _ left right => max left right + 1 }
    let plain : Gates Bool Unit := ⟨.plain growing, by decide⟩
    let k := (IntegerKeys.generate ⟨1, 5, 6⟩ ⟨by decide, by decide, by decide⟩
      ChaCha.source (ChaCha.ofSeed (List.replicate 32 7))).1
    let keyed := k.scheme ChaCha.source
    let config : MachineConfig := { geometry := ⟨1, 1, by decide, by decide, by decide⟩ }
    let uneven : EncryptedImage Bool :=
      ⟨[⟨List.replicate 16 ⟨true, 3⟩⟩, ⟨List.replicate 8 ⟨true, 3⟩⟩, ⟨[]⟩], ⟨[]⟩, ⟨[]⟩⟩
    Image.Refused ⟨9, 0, [1, 2, 3, 4, 5]⟩ plain.scheme config.geometry (.addressOutOfRange 4 4) ∧
    Image.Refused ⟨4, 0, [1, 2, 3, 4]⟩ plain.scheme config.geometry (.pcOutOfRange 4 2) ∧
    (∃ it sealed m, Interpreter.load config.geometry ⟨3, 7, [0x0F00]⟩ = .ok it ∧
      EncryptedImage.encrypt plain.scheme ⟨3, 7, [0x0F00]⟩ config.geometry () = .ok (sealed, ()) ∧
      load plain.scheme config sealed () = .ok m ∧ m.Shows it) ∧
    (∃ it, Interpreter.load config.geometry ⟨3, 7, [0x0F00]⟩ = .ok it ∧
      ∀ state, Outcome (ExhaustedLoad (∃ state, keyed.Dry state))
        (fun (sealed, next) => Outcome (ExhaustedLoad (∃ state, keyed.Dry state))
          (fun m => m.Shows it) (load keyed config sealed next))
        (EncryptedImage.encrypt keyed ⟨3, 7, [0x0F00]⟩ config.geometry state)) ∧
    load plain.scheme config uneven () = .error (.wordWidth 1 8 16) := by
  intro growing plain k keyed config uneven
  have sound : k.Sound := IntegerKeys.generate_sound _ _ _ _
  have onPlain := loaders_agree plain.ofScheme_scheme config
  have onKeys := loaders_agree (k.gates ChaCha.source).ofScheme_scheme config
  have never : ¬ ∃ state, plain.scheme.Dry state := by
    rintro ⟨_, ⟨_, none⟩ | ⟨_, none⟩⟩ <;> cases none
  refine ⟨(onPlain.1 _).1 (by decide), (onPlain.1 _).2.1 (by decide) (by decide), ?_, ?_, ?_⟩
  · obtain ⟨it, _, loaded, encrypts⟩ := (onPlain.1 ⟨3, 7, [0x0F00]⟩).2.2 (by decide) (by decide)
    obtain ⟨⟨sealed, _⟩, sealing, loads⟩ := (encrypts ()).answer fun _ failed => never failed.2
    obtain ⟨m, loading, ready⟩ := (loads ()).answer fun _ failed => never failed.2
    exact ⟨it, sealed, m, loaded, sealing, loading,
      ready.decrypts (Scheme.plainBit_plain _).faithful⟩
  · obtain ⟨it, _, loaded, encrypts⟩ := (onKeys.1 ⟨3, 7, [0x0F00]⟩).2.2 (by decide) (by decide)
    refine ⟨it, loaded, fun state => (encrypts state).mono ?_⟩
    rintro ⟨sealed, next⟩ loads
    exact (loads next).mono fun m ready => ready.decrypts (sound.faithful _)
  · have second : uneven.memory[1]? = some ⟨List.replicate 8 ⟨true, 3⟩⟩ := rfl
    refine (onPlain.2 uneven ()).1 _ (.word (by decide) second (by decide) ?_)
    intro i below other found
    obtain rfl := Nat.lt_one_iff.mp below
    obtain rfl := Option.some.inj found
    rfl

end Machine

end CipherMachine
