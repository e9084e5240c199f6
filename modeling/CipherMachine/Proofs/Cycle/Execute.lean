import CipherMachine.Proofs.Cycle.Decode

set_option autoImplicit false

/-!
The execute phase computes the interpreter's byte operations, all of them at once.
-/

namespace CipherMachine

open GateM

variable {C S : Type} {G : Gates C S} {reads : Bit C → Bool → Prop} {dry : S → Prop}

/-- The candidates stand for the results of every operation on the accumulator's low byte `a`, the
second operand `b`, the low byte of the staging register and the carry flag. -/
structure Candidates.Shows (reads : Bit C → Bool → Prop) (e : Candidates C) (a b loaded : UInt8)
    (carry : Bool) : Prop where
  low : e.low.Holds reads 8 a.toNat
  loaded : e.loaded.Holds reads 8 loaded.toNat
  left : e.left.1.Holds reads 8 (a <<< 1 ||| carry.toUInt8).toNat
  leftCarry : reads e.left.2 (decide (0x80 ≤ a))
  right : e.right.1.Holds reads 8 (a >>> 1 ||| carry.toUInt8 <<< 7).toNat
  rightCarry : reads e.right.2 (a % 2 == 1)
  sum : e.sum.1.Holds reads 8 (a.toUInt16 + b.toUInt16 + carry.toUInt16).toUInt8.toNat
  sumCarry : reads e.sum.2 (decide (0xFF < a.toUInt16 + b.toUInt16 + carry.toUInt16))
  xor : e.xor.Holds reads 8 (a ^^^ b).toNat
  and : e.and.Holds reads 8 (a &&& b).toNat
  or : e.or.Holds reads 8 (a ||| b).toNat
  difference : e.difference.Holds reads 8 (a - b).toNat

variable {a b : Word C} {x y : UInt8} {c : Bit C} {carry : Bool}

namespace Word.Holds

theorem lowByte {word : UInt16} (holds : a.Holds reads 8 word.toNat) :
    a.Holds reads 8 word.toUInt8.toNat :=
  holds.congr (by rw [UInt16.toNat_toUInt8, Nat.mod_mod])

theorem rotatedLeft (ha : a.Holds reads 8 x.toNat) (hc : reads c carry) :
    (a.rotateLeft c).1.Holds reads 8 (x <<< 1 ||| carry.toUInt8).toNat ∧
      reads (a.rotateLeft c).2 (decide (0x80 ≤ x)) := by
  rw [toNat_rotatedLeft, sign_eq_testBit]
  have rotated := rotateLeft ha hc
  exact ⟨rotated.1.congr (Nat.mod_mod _ _).symm, rotated.2⟩

theorem rotatedRight (ha : a.Holds reads 8 x.toNat) (hc : reads c carry) :
    (a.rotateRight c).1.Holds reads 8 (x >>> 1 ||| carry.toUInt8 <<< 7).toNat ∧
      reads (a.rotateRight c).2 (x % 2 == 1) := by
  have bound := x.toNat_lt
  have half : x.toNat / 2 % 2 ^ 7 = x.toNat / 2 := by omega
  have rotated := rotateRight ha hc
  rw [half] at rotated
  rw [toNat_rotatedRight, odd_eq_testBit]
  exact rotated

end Word.Holds

namespace Gates.Homomorphic

theorem sum (hom : G.Homomorphic reads dry) (ha : a.Holds reads 8 x.toNat)
    (hb : b.Holds reads 8 y.toNat) (hc : reads c carry) :
    (G.add a b c).Yields dry fun answer =>
      answer.1.Holds reads 8 (x.toUInt16 + y.toUInt16 + carry.toUInt16).toUInt8.toNat ∧
        reads answer.2 (decide (0xFF < x.toUInt16 + y.toUInt16 + carry.toUInt16)) := by
  refine (hom.add ha hb hc).mono fun answer ⟨sum, out⟩ => ⟨?_, ?_⟩
  · rw [UInt16.toNat_toUInt8, toNat_sum]
    exact sum.congr (Nat.mod_mod _ _).symm
  · have carries : 0xFF < x.toUInt16 + y.toUInt16 + carry.toUInt16 ↔
        2 ^ 8 ≤ x.toNat % 2 ^ 8 + y.toNat % 2 ^ 8 + carry.toNat := by
      rw [UInt16.lt_iff_toNat_lt, toNat_sum, Nat.mod_eq_of_lt x.toNat_lt,
        Nat.mod_eq_of_lt y.toNat_lt]
      exact Nat.lt_iff_add_one_le
    rw [decide_eq_decide.mpr carries]
    exact out

/-- Adding the complement and a carry subtracts. -/
theorem difference (hom : G.Homomorphic reads dry) (ha : a.Holds reads 8 x.toNat)
    (hb : b.Holds reads 8 (2 ^ 8 - (y.toNat % 2 ^ 8 + 1))) (hc : reads c true) :
    (G.add a b c).Yields dry fun answer => answer.1.Holds reads 8 (x - y).toNat := by
  rw [Nat.mod_eq_of_lt y.toNat_lt] at hb
  refine (hom.add ha hb hc).mono fun answer ⟨sum, _⟩ => ?_
  rw [toNat_difference]
  exact sum.congr (Nat.mod_mod _ _).symm

end Gates.Homomorphic

variable {d : Decoded C} {i : Instruction} {g : Geometry} {r : EncryptedRegisters C}
  {p : Registers} {one : Bit C}

theorem Cycle.execute_yields (hom : G.Homomorphic reads dry) (decoded : d.Shows reads i)
    (registers : r.Shows reads g p) (ho : reads one true) {word : Word C} {staging : UInt16}
    (hw : word.Holds reads 16 staging.toNat) :
    (execute G one d r word).Yields dry fun e =>
      e.Shows reads p.ac.toUInt8 (if i.indirect then staging.toUInt8 else i.operand)
        staging.toUInt8 p.carry ∧
      e.nextPc.Holds reads g.addressBits (p.pc.toNat + 1) := by
  refine (registers.ac.low 8 (by decide)).bind fun a ha => ?_
  refine (hw.low 8 (by decide)).bind fun loaded hl => ?_
  replace ha := ha.lowByte
  replace hl := hl.lowByte
  refine (hom.selectWord decoded.indirect hl decoded.operand).bind fun b hb => ?_
  replace hb : b.Holds reads 8
      (if i.indirect then staging.toUInt8 else i.operand).toNat := by
    rw [apply_ite UInt8.toNat]
    exact hb
  refine (hom.sum ha hb registers.carry).bind fun sum hsum => ?_
  refine (hom.xorWord ha hb).bind fun xor hxor => ?_
  refine (hom.andWord ha hb).bind fun and hand => ?_
  refine (hom.orWord ha hb).bind fun or hor => ?_
  rw [← UInt8.toNat_xor] at hxor
  rw [← UInt8.toNat_and] at hand
  rw [← UInt8.toNat_or] at hor
  refine (hom.notWord hb).bind fun complement hn => ?_
  refine (hom.difference ha hn ho).bind fun difference hd => ?_
  refine (hom.increment registers.pc).bind fun nextPc hpc => ?_
  have left := ha.rotatedLeft registers.carry
  have right := ha.rotatedRight registers.carry
  exact .pure ⟨⟨ha, hl, left.1, left.2, right.1, right.2, hsum.1, hsum.2, hxor, hand, hor, hd⟩,
    hpc⟩

end CipherMachine
