import CipherMachine.Proofs.Machine.Loading

set_option autoImplicit false

/-!
Decryption of a state that tracks the interpreter's gives the interpreter's state.
-/

namespace CipherMachine

open GateM

variable {C S : Type} {G : Gates C S} {reads : Bit C → Bool → Prop} {dry : S → Prop}

/-- The digits of a word's value are its decrypted bits. -/
theorem Gates.binaryDigits_value (G : Gates C S) {w : Word C} {width : Nat}
    (same : w.width = width) : binaryDigits width (G.value w) = G.decryptBits w := by
  have digits := binaryDigits_binaryValue (G.decryptBits w)
  have length : (G.decryptBits w).length = width := (List.length_map _).trans same
  rwa [length] at digits

theorem Gates.value_lt (G : Gates C S) (w : Word C) : G.value w < 2 ^ w.width := by
  have below := binaryValue_lt (G.decryptBits w)
  have length : (G.decryptBits w).length = w.width := List.length_map _
  rwa [length] at below

/-- Decryption opens what bits stand for. -/
def Gates.Opens (G : Gates C S) (reads : Bit C → Bool → Prop) : Prop :=
  ∀ {b x}, reads b x → G.decrypt b = x

namespace Gates.Opens

variable {w : Word C} {width n : Nat}

theorem decryptBits (opens : G.Opens reads) {bits : List (Bit C)} {xs : List Bool}
    (read : List.Forall₂ reads bits xs) : G.decryptBits ⟨bits⟩ = xs := by
  rw [Gates.decryptBits, ← List.forall₂_eq_eq_eq, List.forall₂_map_left_iff]
  exact read.imp fun _ _ => opens

theorem value (opens : G.Opens reads) (holds : w.Holds reads width n) :
    G.value w = n % 2 ^ width := by
  rw [Gates.value, opens.decryptBits holds, binaryValue_binaryDigits]

/-- A word whose bits are all read as something holds its own value. -/
theorem holds_value (opens : G.Opens reads) (legible : ∀ b ∈ w.bits, ∃ x, reads b x)
    (same : w.width = width) : w.Holds reads width (G.value w) := by
  rw [Word.Holds, G.binaryDigits_value same, Gates.decryptBits, List.forall₂_map_right_iff,
    List.forall₂_same]
  intro b member
  obtain ⟨x, holds⟩ := legible b member
  rw [opens holds]
  exact holds

theorem word16 (opens : G.Opens reads) {word : UInt16} (holds : w.Holds reads width word.toNat)
    (below : word.toNat < 2 ^ width) (narrow : width ≤ 64) : G.word16 w = .ok word := by
  rw [G.word16_eq (holds.width_eq ▸ narrow), opens.value holds, Nat.mod_eq_of_lt below,
    UInt16.ofNat_toNat]

theorem plainRegisters (opens : G.Opens reads) {r : EncryptedRegisters C} {g : Geometry}
    {p : Registers} (shows : r.Shows reads g p) : G.plainRegisters r = .ok p := by
  have fits := g.addressBits_le
  rw [Gates.plainRegisters, opens.word16 shows.pc shows.pc_lt (by omega),
    opens.word16 shows.ac p.ac.toNat_lt (by decide),
    opens.word16 shows.staging p.staging.toNat_lt (by decide),
    opens shows.carry, opens shows.zero, opens shows.minus]
  rfl

theorem words (opens : G.Opens reads) {cells : List (Word C)} {words : List UInt16}
    (holds : List.Forall₂ (fun cell word => Word.Holds reads cell 16 word.toNat) cells words) :
    cells.mapM G.word16 = .ok words := by
  induction holds with
  | nil => rfl
  | @cons cell word _ _ head _ ih =>
      rw [List.mapM_cons, opens.word16 head word.toNat_lt (by decide), ih]
      rfl

end Gates.Opens

/-- A decrypted dump of the interpreter's memory and registers, word for word. -/
structure PlainDump.Shows (d : PlainDump) (it : Interpreter) : Prop where
  memory : d.memory = it.memory.toList
  registers : d.registers = it.registers

/-- The machine's dump can be decrypted, and shows the interpreter's memory and registers. -/
def Machine.Shows (m : Machine C S) (it : Interpreter) : Prop :=
  ∃ d, m.dump.decrypt m.gates = .ok d ∧ d.Shows it

/-- The dump of a machine that stands for an interpreter is decrypted, with its cycles. -/
theorem Machine.Tracks.dump_decrypts {m : Machine C S} {it : Interpreter}
    (opens : m.gates.Opens reads) (tracks : m.Tracks reads it) :
    m.dump.decrypt m.gates = .ok ⟨it.memory.toList, it.registers, m.stats, m.cycles⟩ :=
  Dump.decrypt_eq (opens.words tracks.memory.cells) (opens.plainRegisters tracks.registers)

theorem Machine.Tracks.dump_shows {m : Machine C S} {it : Interpreter}
    (opens : m.gates.Opens reads) (tracks : m.Tracks reads it) : m.Shows it :=
  ⟨_, tracks.dump_decrypts opens, rfl, rfl⟩

/-- Encrypting an image that fits, running it and decrypting what is left gives the interpreter's
state, unless the scheme runs out of randomness. -/
theorem execute_outcome (hom : G.Homomorphic reads dry) (opens : G.Opens reads)
    (config : MachineConfig) {image : Image} (fits : image.checkFits config.geometry = .ok ())
    (state : S) (n : Nat) :
    ∃ it, Interpreter.load config.geometry image = .ok it ∧
      Outcome (ExhaustedLoad (∃ state, dry state))
        (fun (sealed, next) => Outcome (ExhaustedLoad (∃ state, dry state)) (·.Shows (it.run n))
          (execute G.scheme config sealed n next))
        (EncryptedImage.encrypt G.scheme image config.geometry state) := by
  refine ⟨_, Interpreter.load_eq_ok fits, ?_⟩
  refine (EncryptedImage.encrypt_outcome hom fits state).mono fun (sealed, next) shows => ?_
  obtain ⟨it, loaded, loading⟩ := Machine.load_outcome hom config shows fits next
  obtain rfl := Except.ok.inj ((Interpreter.load_eq_ok fits).symm.trans loaded)
  refine loading.bind fun m ⟨gates, tracks⟩ => ?_
  subst gates
  refine ((tracks.run n hom).mapFault id).bind fun run ⟨gates, tracks⟩ => ?_
  rw [← gates] at opens
  rw [tracks.dump_decrypts opens]
  exact ⟨rfl, rfl⟩

end CipherMachine
