import CipherMachine.Cycle
import CipherMachine.Proofs.Bytes
import CipherMachine.Proofs.Gates.Arithmetic
import CipherMachine.Proofs.Memory
import Mathlib.Data.Nat.Bitwise

set_option autoImplicit false

/-!
Encrypted state that stands for the interpreter's, and the phases of a cycle up to the memory
stage.
-/

namespace CipherMachine

open GateM

namespace Opcode

theorem all_nibbles : all.map (·.nibble.toNat) = List.range' 1 15 := by decide

theorem getElem?_all (op : Opcode) : all[op.nibble.toNat - 1]? = some op := by cases op <;> rfl

theorem nibble_bounds (op : Opcode) : 0 < op.nibble.toNat ∧ op.nibble.toNat < 2 ^ 4 := by
  cases op <;> decide

theorem ofNibble?_eq_some_iff (nibble : UInt8) (op : Opcode) :
    ofNibble? nibble = some op ↔ nibble.toNat % 2 ^ 4 = op.nibble.toNat := by
  have low : (nibble &&& 0xF).toNat = nibble.toNat % 2 ^ 4 := by
    rw [UInt8.toNat_and]
    exact Nat.and_two_pow_sub_one_eq_mod nibble.toNat 4
  have bounds := op.nibble_bounds
  unfold ofNibble?
  rw [low]
  split
  · rename_i zero
    simp only [reduceCtorEq, false_iff]
    omega
  · rename_i n positive
    constructor
    · intro found
      have number : (all.map (·.nibble.toNat))[n]? = some op.nibble.toNat := by
        rw [List.getElem?_map, found, Option.map_some]
      rw [all_nibbles, List.getElem?_range' (by omega), Option.some.injEq] at number
      omega
    · intro number
      have found := getElem?_all op
      rwa [← number, positive, Nat.succ_sub_one] at found

end Opcode

namespace Instruction

theorem toNat_nibble_decode (word : UInt16) :
    (decode word).nibble.toNat = word.toNat / 2 ^ 8 % 2 ^ 4 := by
  have bound := word.toNat_lt
  have shifted : ((word >>> 8).toUInt8).toNat = word.toNat / 2 ^ 8 := by
    rw [UInt16.toNat_toUInt8, UInt16.toNat_shiftRight]
    change word.toNat >>> 8 % 2 ^ 8 = _
    rw [Nat.shiftRight_eq_div_pow]
    omega
  unfold decode
  rw [UInt8.toNat_and, shifted]
  exact Nat.and_two_pow_sub_one_eq_mod _ 4

theorem indirect_decode (word : UInt16) : (decode word).indirect = word.toNat.testBit 12 := by
  have masked : (word &&& 0x1000).toNat = (word.toNat.testBit 12).toNat * 2 ^ 12 := by
    rw [UInt16.toNat_and]
    exact Nat.and_two_pow word.toNat 12
  unfold decode
  rw [Bool.eq_iff_iff, bne_iff_ne, ne_eq, ← UInt16.toNat_inj, masked]
  cases word.toNat.testBit 12 <;> decide

theorem toNat_operand_decode (word : UInt16) :
    (decode word).operand.toNat = word.toNat % 2 ^ 8 := UInt16.toNat_toUInt8 word

end Instruction

variable {C S : Type} {G : Gates C S} {reads : Bit C → Bool → Prop} {dry : S → Prop}

structure Memory.Shows (reads : Bit C → Bool → Prop) (m : Memory C) (g : Geometry)
    (words : Array UInt16) : Prop where
  geometry : m.geometry = g
  size : words.size = g.capacity
  cells : List.Forall₂ (fun cell word => Word.Holds reads cell 16 word.toNat) m.cells words.toList

/-- The register file stands for a plaintext one whose program counter is an address. -/
structure EncryptedRegisters.Shows (reads : Bit C → Bool → Prop) (r : EncryptedRegisters C)
    (g : Geometry) (p : Registers) : Prop where
  pc : r.pc.Holds reads g.addressBits p.pc.toNat
  pc_lt : p.pc.toNat < 2 ^ g.addressBits
  ac : r.ac.Holds reads 16 p.ac.toNat
  carry : reads r.carry p.carry
  zero : reads r.zero p.zero
  minus : reads r.minus p.minus
  staging : r.staging.Holds reads 16 p.staging.toNat

structure Decoded.Shows (reads : Bit C → Bool → Prop) (d : Decoded C) (i : Instruction) :
    Prop where
  selectors : List.Forall₂ (fun b op => reads b (decide (i.opcode? = some op))) d.selectors
    Opcode.all
  indirect : reads d.indirect i.indirect
  operand : d.operand.Holds reads 8 i.operand.toNat

variable {d : Decoded C} {i : Instruction} {m : Memory C} {g : Geometry} {words : Array UInt16}
  {r : EncryptedRegisters C} {p : Registers} {schedule : Schedule} {one : Bit C}

theorem Decoded.Shows.selector (shows : d.Shows reads i) (op : Opcode) :
    Yields dry (liftM (d.selector op) : GateM S (Bit C))
      (reads · (decide (i.opcode? = some op))) := by
  have position := Opcode.getElem?_all op
  obtain ⟨bound, here⟩ := List.getElem?_eq_some_iff.mp position
  have bound' : op.nibble.toNat - 1 < d.selectors.length := by
    rw [shows.selectors.length_eq]
    exact bound
  have read := shows.selectors.get bound' bound
  rw [List.get_eq_getElem, List.get_eq_getElem, here] at read
  refine .lift ?_ read
  rw [Decoded.selector, List.getElem?_eq_getElem bound']

/-- An access at a plain address reads or replaces the word there. -/
theorem Memory.Shows.access_yields (hom : G.Homomorphic reads dry)
    (covers : schedule.Covers g.capacity) (shows : m.Shows reads g words)
    {addressWord data fallback : Word C} {read : Bit C} {address d f : UInt16} {isRead : Bool}
    (within : address.toNat < 2 ^ g.addressBits)
    (ha : addressWord.Holds reads g.addressBits address.toNat)
    (hd : data.Holds reads 16 d.toNat) (hr : reads read isRead)
    (hf : fallback.Holds reads 16 f.toNat) :
    (m.access G schedule addressWord data read fallback).Yields dry fun answer =>
      answer.1.Holds reads 16 (if isRead then words.getD address.toNat 0 else f).toNat ∧
        answer.2.Shows reads g (if isRead then words else words.setIfInBounds address.toNat d) := by
  obtain ⟨geometry, size, cells⟩ := shows
  subst geometry
  have numbers := List.forall₂_map_right_iff (f := UInt16.toNat).mpr cells
  have length : (words.toList.map UInt16.toNat).length = m.geometry.capacity := by
    rw [List.length_map, Array.length_toList, size]
  refine (Memory.access_yields hom covers length ?_ numbers ha hd hr hf).mono
    fun answer ⟨word, same, cells⟩ => ⟨?_, same, ?_, ?_⟩
  · rwa [Geometry.capacity_eq]
  · have read : (words.toList.map UInt16.toNat).getD address.toNat 0 =
        (words.getD address.toNat 0).toNat := by
      rw [List.getD_eq_getElem?_getD, List.getElem?_map, Array.getElem?_toList,
        Array.getD_eq_getD_getElem?]
      cases words[address.toNat]? <;> rfl
    rw [read] at word
    cases isRead <;> exact word
  · cases isRead
    · exact (Array.size_setIfInBounds ..).trans size
    · exact size
  · cases isRead
    · change List.Forall₂ _ _ ((words.toList.map UInt16.toNat).set address.toNat d.toNat) at cells
      rw [← List.map_set] at cells
      rw [if_neg Bool.false_ne_true, Array.toList_setIfInBounds]
      exact List.forall₂_map_right_iff.mp cells
    · exact List.forall₂_map_right_iff.mp cells

theorem toNat_effectiveAddress (g : Geometry) (ac : UInt16) (i : Instruction) :
    (Interpreter.effectiveAddress g ac i).toNat =
      (if i.indirect then ac.toNat else i.operand.toNat) % 2 ^ g.addressBits := by
  unfold Interpreter.effectiveAddress
  rw [toNat_and_addressMask]
  split <;> rfl

namespace Cycle

theorem fetch_yields (hom : G.Homomorphic reads dry) (covers : schedule.Covers g.capacity)
    (memory : m.Shows reads g words) (registers : r.Shows reads g p) (ho : reads one true) :
    (fetch G schedule one r m).Yields dry fun answer =>
      answer.1.Holds reads 16 (Interpreter.wordAt g words p.pc).toNat ∧
        answer.2.Shows reads g words := by
  refine (memory.access_yields hom covers registers.pc_lt registers.pc registers.ac ho
    registers.staging).mono fun answer ⟨word, kept⟩ => ⟨?_, kept⟩
  rw [Interpreter.wordAt, toNat_and_addressMask, Nat.mod_eq_of_lt registers.pc_lt]
  exact word

theorem decode_yields (hom : G.Homomorphic reads dry) {instruction : Word C} {word : UInt16}
    (holds : instruction.Holds reads 16 word.toNat) :
    (decode G instruction).Yields dry (·.Shows reads (Instruction.decode word)) := by
  refine (holds.slice 8 12 (by decide) (by decide)).bind fun nibble hn => ?_
  refine (hom.matchPatterns hn (by decide) (by decide) _).bind fun selectors hs => ?_
  refine (holds.bit (i := 12) (by decide)).bind fun indirect hi => ?_
  refine (holds.low 8 (by decide)).bind fun operand ho => ?_
  refine .pure ⟨?_, ?_, ?_⟩
  · rw [List.forall₂_map_right_iff] at hs
    refine hs.imp fun b op hb => ?_
    have same : word.toNat / 2 ^ 8 % 2 ^ 4 = op.nibble.toNat % 2 ^ 4 ↔
        (Instruction.decode word).opcode? = some op := by
      rw [Instruction.opcode?, Opcode.ofNibble?_eq_some_iff, Instruction.toNat_nibble_decode,
        Nat.mod_mod, Nat.mod_eq_of_lt op.nibble_bounds.2]
    rwa [← decide_eq_decide.mpr same]
  · rw [Instruction.indirect_decode]
    exact hi
  · rw [Instruction.toNat_operand_decode]
    exact ho.congr (Nat.mod_mod _ _).symm

/-- The memory stage stores or loads as the interpreter's does, and leaves the effective
address. -/
theorem memoryStage_yields (hom : G.Homomorphic reads dry) (covers : schedule.Covers g.capacity)
    (decoded : d.Shows reads i) (memory : m.Shows reads g words)
    (registers : r.Shows reads g p) {address : UInt16}
    (effective : Interpreter.effectiveAddress g p.ac i = address) :
    (memoryStage G schedule d r m).Yields dry fun (addressWord, loaded, next) =>
      addressWord.Holds reads g.addressBits address.toNat ∧
        loaded.Holds reads 16
          (Interpreter.memoryStage g words p i.opcode? address).2.toNat ∧
        next.Shows reads g (Interpreter.memoryStage g words p i.opcode? address).1 := by
  have narrow := g.addressBits_le
  have value := toNat_effectiveAddress g p.ac i
  rw [effective] at value
  have below : address.toNat < 2 ^ g.addressBits := by
    rw [value]
    exact Nat.mod_lt _ (Nat.two_pow_pos _)
  have width : r.pc.width = g.addressBits := registers.pc.width_eq
  refine (registers.ac.low r.pc.width (by omega)).bind fun accumulator ha => ?_
  refine (decoded.operand.low r.pc.width (by omega)).bind fun operand ho => ?_
  refine (hom.selectWord decoded.indirect ha ho).bind fun addressWord hw => ?_
  refine (decoded.selector .store).bind fun store hs => ?_
  refine (hom.not hs).bind fun read hr => ?_
  rw [width] at hw
  have held : addressWord.Holds reads g.addressBits address.toNat :=
    hw.congr (by rw [value, Nat.mod_mod])
  refine (memory.access_yields hom covers below held registers.ac hr registers.staging).bind
    fun (loaded, next) ⟨word, cells⟩ => .pure ⟨held, ?_⟩
  by_cases store : i.opcode? = some .store
  · simp only [Interpreter.memoryStage, store, decide_true, Bool.not_true, Bool.false_eq_true,
      if_false, if_true] at word cells ⊢
    exact ⟨word, cells⟩
  · simp only [Interpreter.memoryStage, store, decide_false, Bool.not_false, if_false,
      if_true] at word cells ⊢
    rw [Interpreter.wordAt, toNat_and_addressMask, Nat.mod_eq_of_lt below]
    exact ⟨word, cells⟩

end Cycle

end CipherMachine
