import CipherMachine.Proofs.IntegerCorrectness
import CipherMachine.Proofs.PlainBit

set_option autoImplicit false

/-!
The three highest bits of a word are ignored, over whole runs.

Words travel between memory, staging register and accumulator with all their bits, and what was
stored as data may be fetched as code. Two runs that start from words with the same fields keep
words with the same fields in corresponding places, since no decision looks at more than the fields.
-/

namespace CipherMachine

/-- Words that agree in bits 0 to 12, which are those of an instruction's fields. -/
def SameFields (v w : UInt16) : Prop := v.toNat % 2 ^ 13 = w.toNat % 2 ^ 13

namespace SameFields

variable {v w : UInt16}

theorem refl (w : UInt16) : SameFields w w := Eq.refl _

theorem decode_eq (same : SameFields v w) : Instruction.decode v = Instruction.decode w := by
  unfold SameFields at same
  have nibble : (Instruction.decode v).nibble = (Instruction.decode w).nibble := by
    rw [← UInt8.toNat_inj, Instruction.toNat_nibble_decode, Instruction.toNat_nibble_decode]
    omega
  have indirect : (Instruction.decode v).indirect = (Instruction.decode w).indirect := by
    rw [Instruction.indirect_decode, Instruction.indirect_decode,
      Nat.testBit_eq_decide_div_mod_eq, Nat.testBit_eq_decide_div_mod_eq]
    apply decide_eq_decide.mpr
    omega
  have operand : (Instruction.decode v).operand = (Instruction.decode w).operand := by
    rw [← UInt8.toNat_inj, Instruction.toNat_operand_decode, Instruction.toNat_operand_decode]
    omega
  exact Instruction.mk.injEq .. |>.mpr ⟨nibble, indirect, operand⟩

theorem toUInt8_eq (same : SameFields v w) : v.toUInt8 = w.toUInt8 := by
  unfold SameFields at same
  rw [← UInt8.toNat_inj, UInt16.toNat_toUInt8, UInt16.toNat_toUInt8]
  omega

/-- An address has at most eight bits. -/
theorem and_addressMask_eq (same : SameFields v w) (g : Geometry) :
    v &&& g.addressMask = w &&& g.addressMask := by
  have narrow : g.addressBits ≤ 13 := Nat.le_trans g.addressBits_le (by decide)
  have divides : 2 ^ g.addressBits ∣ 2 ^ 13 := Nat.pow_dvd_pow 2 narrow
  rw [← UInt16.toNat_inj, toNat_and_addressMask, toNat_and_addressMask,
    ← Nat.mod_mod_of_dvd v.toNat divides, ← Nat.mod_mod_of_dvd w.toNat divides, same]

theorem withLowByte (same : SameFields v w) (b : UInt8) :
    SameFields (v &&& 0xFF00 ||| b.toUInt16) (w &&& 0xFF00 ||| b.toUInt16) := by
  unfold SameFields at same ⊢
  rw [toNat_withLowByte, toNat_withLowByte]
  omega

end SameFields

/-- Registers that may differ in the ignored bits of accumulator and staging register only. -/
structure Registers.Agree (r r' : Registers) : Prop where
  pc : r.pc = r'.pc
  ac : SameFields r.ac r'.ac
  carry : r.carry = r'.carry
  zero : r.zero = r'.zero
  minus : r.minus = r'.minus
  staging : SameFields r.staging r'.staging

namespace Interpreter

structure Agree (it it' : Interpreter) : Prop where
  geometry : it.geometry = it'.geometry
  memory : List.Forall₂ SameFields it.memory.toList it'.memory.toList
  registers : it.registers.Agree it'.registers

variable {g : Geometry} {memory memory' : Array UInt16} {r r' : Registers}

theorem wordAt_agree (cells : List.Forall₂ SameFields memory.toList memory'.toList)
    (address : UInt16) : SameFields (wordAt g memory address) (wordAt g memory' address) := by
  unfold wordAt
  rw [Array.getD_eq_getD_getElem?, Array.getD_eq_getD_getElem?, ← Array.getElem?_toList,
    ← Array.getElem?_toList]
  obtain ⟨v, w, left, right, same⟩ | ⟨left, right⟩ :=
    forall₂_getElem? cells (address &&& g.addressMask).toNat
  · rw [left, right]
    exact same
  · rw [left, right]
    exact .refl 0

theorem memoryStage_agree (g : Geometry)
    (cells : List.Forall₂ SameFields memory.toList memory'.toList)
    (registers : r.Agree r') (op : Option Opcode) (address : UInt16) :
    List.Forall₂ SameFields (memoryStage g memory r op address).1.toList
        (memoryStage g memory' r' op address).1.toList ∧
      SameFields (memoryStage g memory r op address).2 (memoryStage g memory' r' op address).2 := by
  unfold memoryStage
  split
  · rw [Array.toList_setIfInBounds, Array.toList_setIfInBounds]
    exact ⟨forall₂_set cells _ registers.ac, registers.staging⟩
  · exact ⟨cells, wordAt_agree cells address⟩

/-- What is computed depends on low bytes and flags only. -/
theorem nextRegisters_agree (registers : r.Agree r') (i : Instruction) (address : UInt16)
    {staging staging' : UInt16} (staged : SameFields staging staging') :
    (nextRegisters g r i address staging).Agree (nextRegisters g r' i address staging') := by
  obtain ⟨pc, ac, carry, zero, minus, _⟩ := registers
  unfold nextRegisters
  rw [pc, carry, zero, minus, ac.toUInt8_eq, staged.toUInt8_eq]
  exact ⟨rfl, ac.withLowByte _, rfl, rfl, rfl, staged⟩

variable {it it' : Interpreter}

theorem Agree.step (agree : it.Agree it') : it.step.Agree it'.step := by
  obtain ⟨g, memory, r, cycles⟩ := it
  obtain ⟨_, memory', r', cycles'⟩ := it'
  obtain ⟨rfl, cells, registers⟩ := agree
  change List.Forall₂ SameFields memory.toList memory'.toList at cells
  change r.Agree r' at registers
  have fetched : Instruction.decode (wordAt g memory r.pc) =
      Instruction.decode (wordAt g memory' r'.pc) := by
    rw [registers.pc]
    exact (wordAt_agree cells r'.pc).decode_eq
  have address : effectiveAddress g r.ac (Instruction.decode (wordAt g memory r.pc)) =
      effectiveAddress g r'.ac (Instruction.decode (wordAt g memory' r'.pc)) := by
    rw [fetched]
    unfold effectiveAddress
    split
    · exact registers.ac.and_addressMask_eq g
    · rfl
  unfold Interpreter.step
  dsimp only
  rw [address, fetched]
  have staged := memoryStage_agree g cells registers
    (Instruction.decode (wordAt g memory' r'.pc)).opcode?
    (effectiveAddress g r'.ac (Instruction.decode (wordAt g memory' r'.pc)))
  exact ⟨rfl, staged.1, nextRegisters_agree registers _ _ staged.2⟩

theorem Agree.run (agree : it.Agree it') (n : Nat) : (it.run n).Agree (it'.run n) := by
  induction n generalizing it it' with
  | zero => exact agree
  | succ n ih => exact ih agree.step

theorem load_agree {image image' : Image} {words words' : List UInt16}
    (fits : image.memory g = .ok words) (fits' : image'.memory g = .ok words')
    (cells : List.Forall₂ SameFields words words') (pc : image.pc = image'.pc)
    (ac : SameFields image.ac image'.ac) :
    ∃ start start', load g image = .ok start ∧ load g image' = .ok start' ∧ start.Agree start' := by
  refine ⟨⟨g, words.toArray, .initial image.pc image.ac, 0⟩,
    ⟨g, words'.toArray, .initial image'.pc image'.ac, 0⟩, ?_, ?_, rfl, cells,
    ⟨pc, ac, rfl, rfl, rfl, .refl 0⟩⟩
  · rw [load, fits]
    rfl
  · rw [load, fits']
    rfl

end Interpreter

structure PlainDump.Agree (d d' : PlainDump) : Prop where
  memory : List.Forall₂ SameFields d.memory d'.memory
  registers : d.registers.Agree d'.registers

theorem PlainDump.Shows.agree {d d' : PlainDump} {it it' : Interpreter} (shows : d.Shows it)
    (shows' : d'.Shows it') (agree : it.Agree it') : d.Agree d' := by
  refine ⟨?_, ?_⟩
  · rw [shows.memory, shows'.memory]
    exact agree.memory
  · rw [shows.registers, shows'.registers]
    exact agree.registers

/-- Encrypts an image, runs it for exactly `n` cycles and decrypts what is left. -/
def executeImage {C S : Type} (scheme : Scheme C S) (config : MachineConfig) (image : Image)
    (n : Nat) (state : S) : Except LoadError PlainDump := do
  let (sealed, state) ← EncryptedImage.encrypt scheme image config.geometry state
  execute scheme config sealed n state

theorem Image.fits_of_memory {image : Image} {g : Geometry} {words : List UInt16}
    (padded : image.memory g = .ok words) : image.checkFits g = .ok () := by
  unfold memory at padded
  cases fits : image.checkFits g with
  | ok _ => rfl
  | error error =>
      rw [fits] at padded
      cases padded

section

variable {C S : Type} {G : Gates C S} {reads : Bit C → Bool → Prop} {dry : S → Prop}
  {config : MachineConfig} {image image' : Image}

theorem executeImage_outcome (hom : G.Homomorphic reads dry) (opens : G.Opens reads)
    (fits : image.checkFits config.geometry = .ok ()) {start : Interpreter}
    (loaded : Interpreter.load config.geometry image = .ok start) (n : Nat) (state : S) :
    Outcome (ExhaustedLoad (∃ state, dry state)) (·.Shows (start.run n))
      (executeImage G.scheme config image n state) := by
  obtain ⟨it, same, sealing⟩ := execute_outcome hom opens config fits state n
  obtain rfl := Except.ok.inj (loaded.symm.trans same)
  exact sealing.bind fun _ answer => answer

/-- The encrypted machine ignores what the interpreter ignores. -/
theorem executeImage_agree (hom : G.Homomorphic reads dry) (opens : G.Opens reads)
    (fits : image.checkFits config.geometry = .ok ())
    (fits' : image'.checkFits config.geometry = .ok ()) {start start' : Interpreter}
    (loaded : Interpreter.load config.geometry image = .ok start)
    (loaded' : Interpreter.load config.geometry image' = .ok start') (agree : start.Agree start')
    (n : Nat) (state state' : S) :
    Outcome (ExhaustedLoad (∃ state, dry state)) (fun d =>
        Outcome (ExhaustedLoad (∃ state, dry state)) d.Agree
          (executeImage G.scheme config image' n state'))
      (executeImage G.scheme config image n state) := by
  apply (executeImage_outcome hom opens fits loaded n state).mono
  intro d shows
  apply (executeImage_outcome hom opens fits' loaded' n state').mono
  intro d' shows'
  exact shows.agree shows' (agree.run n)

end

namespace Interpreter

/-- Images with one program counter whose padded memories and accumulators have the same fields: the
interpreter's runs, and the encrypted machine's under plain bits and under integer keys, leave the
same program counter and flags, and words with the same fields everywhere else. -/
theorem runs_ignore_high_bits {g : Geometry} {image image' : Image} {words words' : List UInt16}
    (padded : image.memory g = .ok words) (padded' : image'.memory g = .ok words')
    (cells : List.Forall₂ SameFields words words') (pc : image.pc = image'.pc)
    (ac : SameFields image.ac image'.ac) (n : Nat) :
    (∃ start start', load g image = .ok start ∧ load g image' = .ok start' ∧
      (start.run n).Agree (start'.run n)) ∧
    (∀ {S : Type} (scheme : Scheme Bool S) (config : MachineConfig) (state state' : S),
      scheme.PlainBit → scheme.noise.Workable → config.geometry = g →
        ∃ d d', executeImage scheme config image n state = .ok d ∧
          executeImage scheme config image' n state' = .ok d' ∧ d.Agree d') ∧
    ∀ {R : Type} (params : IntegerParams) (valid : params.Valid) (src : Source R) (r : R)
      (config : MachineConfig) (state state' : R), config.geometry = g →
        let k := (IntegerKeys.generate params valid src r).1
        let dry := ∃ t, src.below k.quotientBound t = none
        Outcome (ExhaustedLoad dry) (fun d => Outcome (ExhaustedLoad dry) d.Agree
            (executeImage (k.scheme src) config image' n state'))
          (executeImage (k.scheme src) config image n state) := by
  have fits := Image.fits_of_memory padded
  have fits' := Image.fits_of_memory padded'
  obtain ⟨start, start', loaded, loaded', agree⟩ := load_agree padded padded' cells pc ac
  refine ⟨⟨start, start', loaded, loaded', agree.run n⟩, ?_, ?_⟩
  · rintro S scheme config state state' plain workable rfl
    have hom := Gates.homomorphic (G := ⟨scheme, workable⟩) plain.preserves
    have never : ∀ error, ¬ ExhaustedLoad (∃ _ : S, False) error :=
      fun _ holds => holds.2.elim fun _ => id
    obtain ⟨d, left, rest⟩ := (executeImage_agree hom plain.opens fits fits' loaded loaded' agree n
      state state').answer never
    obtain ⟨d', right, same⟩ := rest.answer never
    exact ⟨d, d', left, right, same⟩
  · rintro R params valid src r config state state' rfl
    have hom := (IntegerKeys.generate_sound params valid src r).homomorphic src
    exact executeImage_agree hom (IntegerKeys.opens _ src) fits fits' loaded loaded' agree n state
      state'

/-- Two programs that store their accumulators over their own code, with different ignored bits in
every word. -/
theorem runs_ignore_high_bits_store :
    (∃ start start',
      load ⟨1, 1, by decide, by decide, by decide⟩ ⟨0, 0x0B21, [0x0F01, 0x0801]⟩ = .ok start ∧
      load ⟨1, 1, by decide, by decide, by decide⟩ ⟨0, 0xEB21, [0x8F01, 0x2801, 0xE000]⟩ =
        .ok start' ∧
      (start.run 3).Agree (start'.run 3)) ∧
    ∃ d d',
      executeImage (Scheme.plain { fresh := 3, budget := 6 })
        ⟨⟨1, 1, by decide, by decide, by decide⟩, false, false⟩ ⟨0, 0x0B21, [0x0F01, 0x0801]⟩ 3
        () = .ok d ∧
      executeImage (Scheme.plain { fresh := 3, budget := 6 })
        ⟨⟨1, 1, by decide, by decide, by decide⟩, false, false⟩
        ⟨0, 0xEB21, [0x8F01, 0x2801, 0xE000]⟩ 3 () = .ok d' ∧
      d.Agree d' := by
  have cells : List.Forall₂ SameFields [0x0F01, 0x0801, 0, 0] [0x8F01, 0x2801, 0xE000, 0] :=
    .cons rfl (.cons rfl (.cons rfl (.cons rfl .nil)))
  have padded : Image.memory ⟨0, 0x0B21, [0x0F01, 0x0801]⟩
      (⟨1, 1, by decide, by decide, by decide⟩ : Geometry) = .ok [0x0F01, 0x0801, 0, 0] := rfl
  have padded' : Image.memory ⟨0, 0xEB21, [0x8F01, 0x2801, 0xE000]⟩
      (⟨1, 1, by decide, by decide, by decide⟩ : Geometry) =
        .ok [0x8F01, 0x2801, 0xE000, 0] := rfl
  have ignored := runs_ignore_high_bits padded padded' cells rfl rfl 3
  exact ⟨ignored.1, ignored.2.1 _ _ () () (Scheme.plainBit_plain _) (by decide) rfl⟩

end Interpreter

end CipherMachine
