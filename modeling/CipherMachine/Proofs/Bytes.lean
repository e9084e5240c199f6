import CipherMachine.Interpreter
import Mathlib.Algebra.Group.Nat.Defs

set_option autoImplicit false

/-!
The interpreter's byte and word arithmetic in numbers.
-/

namespace CipherMachine

namespace Geometry

theorem capacity_eq (g : Geometry) : g.capacity = 2 ^ g.addressBits :=
  (Nat.pow_add 2 g.rowBits g.colBits).symm

theorem toNat_addressMask (g : Geometry) : g.addressMask.toNat = 2 ^ g.addressBits - 1 := by
  have bound := g.addressBits_le
  unfold addressMask
  generalize g.addressBits = bits at bound
  revert bits
  decide

end Geometry

theorem toNat_toUInt8 (c : Bool) : c.toUInt8.toNat = c.toNat := by cases c <;> rfl

theorem toNat_toUInt16 (c : Bool) : c.toUInt16.toNat = c.toNat := by cases c <;> rfl

theorem toNat_and_addressMask (g : Geometry) (a : UInt16) :
    (a &&& g.addressMask).toNat = a.toNat % 2 ^ g.addressBits := by
  rw [UInt16.toNat_and, g.toNat_addressMask, Nat.and_two_pow_sub_one_eq_mod]

/-- A number without bits outside the address mask is an address. -/
theorem toNat_lt_of_and_not_addressMask {g : Geometry} {a : UInt16}
    (outside : a &&& ~~~g.addressMask = 0) : a.toNat < 2 ^ g.addressBits := by
  apply Nat.lt_pow_two_of_testBit
  intro i high
  by_cases below : i < 16
  · have mask_lt : 2 ^ g.addressBits - 1 < 2 ^ 16 := by
      rw [← g.toNat_addressMask]
      exact g.addressMask.toNat_lt
    have complement : (~~~g.addressMask).toNat = 2 ^ 16 - (2 ^ g.addressBits - 1 + 1) := by
      rw [UInt16.toNat_not, g.toNat_addressMask]
      change 2 ^ 16 - 1 - _ = _
      omega
    have bits : (a &&& ~~~g.addressMask).toNat.testBit i = false := by
      rw [outside]
      exact Nat.zero_testBit i
    rw [UInt16.toNat_and, complement, Nat.testBit_and, Nat.testBit_two_pow_sub_succ mask_lt,
      Nat.testBit_two_pow_sub_one] at bits
    simpa [below, Nat.not_lt.mpr high] using bits
  · apply Nat.testBit_lt_two_pow
    exact Nat.lt_of_lt_of_le a.toNat_lt (Nat.pow_le_pow_right (by decide) (Nat.not_lt.mp below))

/-- The addresses of a shape are the numbers below its capacity. -/
theorem and_not_addressMask_eq_zero_iff {g : Geometry} {a : UInt16} :
    a &&& ~~~g.addressMask = 0 ↔ a.toNat < g.capacity := by
  rw [g.capacity_eq]
  constructor
  · exact toNat_lt_of_and_not_addressMask
  · intro below
    have inside : a &&& g.addressMask = a := by
      rw [← UInt16.toNat_inj, toNat_and_addressMask, Nat.mod_eq_of_lt below]
    rw [← inside, UInt16.and_assoc, UInt16.and_not_self, UInt16.and_zero]

/-- Shifted up, a byte loses its highest bit and takes the carry in. -/
theorem toNat_rotatedLeft (a : UInt8) (c : Bool) :
    (a <<< 1 ||| c.toUInt8).toNat = (c.toNat + 2 * a.toNat) % 2 ^ 8 := by
  have low : c.toNat < 2 ^ 1 := Nat.lt_succ_of_le (Bool.toNat_le c)
  have double : a.toNat <<< 1 % 2 ^ 8 = (a.toNat % 2 ^ 7) <<< 1 := by
    rw [Nat.shiftLeft_eq, Nat.shiftLeft_eq]
    omega
  rw [UInt8.toNat_or, UInt8.toNat_shiftLeft, toNat_toUInt8]
  change a.toNat <<< 1 % 2 ^ 8 ||| c.toNat = _
  rw [double, ← Nat.shiftLeft_add_eq_or_of_lt low, Nat.shiftLeft_eq]
  omega

/-- Shifted down, a byte loses its lowest bit and takes the carry in at the top. -/
theorem toNat_rotatedRight (a : UInt8) (c : Bool) :
    (a >>> 1 ||| c.toUInt8 <<< 7).toNat = a.toNat / 2 + 2 ^ 7 * c.toNat := by
  have high : a.toNat / 2 < 2 ^ 7 := by
    have bound := a.toNat_lt
    omega
  have top : (c.toUInt8 <<< 7).toNat = c.toNat <<< 7 := by cases c <;> rfl
  rw [UInt8.toNat_or, UInt8.toNat_shiftRight, top]
  change a.toNat >>> 1 ||| c.toNat <<< 7 = _
  rw [Nat.shiftRight_eq_div_pow, Nat.or_comm, Nat.pow_one,
    ← Nat.shiftLeft_add_eq_or_of_lt high, Nat.shiftLeft_eq]
  omega

theorem toNat_sum (a b : UInt8) (c : Bool) :
    (a.toUInt16 + b.toUInt16 + c.toUInt16).toNat = a.toNat + b.toNat + c.toNat := by
  have bounds := And.intro a.toNat_lt b.toNat_lt
  have low := Bool.toNat_le c
  rw [UInt16.toNat_add, UInt16.toNat_add, toNat_toUInt16, UInt8.toNat_toUInt16,
    UInt8.toNat_toUInt16]
  omega

theorem toNat_difference (a b : UInt8) :
    (a - b).toNat = (a.toNat + (2 ^ 8 - (b.toNat + 1)) + 1) % 2 ^ 8 := by
  have bound := b.toNat_lt
  rw [UInt8.toNat_sub]
  omega

theorem sign_eq_testBit (a : UInt8) : decide (0x80 ≤ a) = a.toNat.testBit 7 := by
  have bound := a.toNat_lt
  rw [Nat.testBit_eq_decide_div_mod_eq]
  apply decide_eq_decide.mpr
  rw [UInt8.le_iff_toNat_le]
  change 128 ≤ a.toNat ↔ _
  omega

theorem odd_eq_testBit (a : UInt8) : (a % 2 == 1) = a.toNat.testBit 0 := by
  rw [Nat.testBit_zero, Bool.eq_iff_iff, beq_iff_eq, decide_eq_true_eq, ← UInt8.toNat_inj,
    UInt8.toNat_mod]
  rfl

theorem toNat_withLowByte (a : UInt16) (b : UInt8) :
    (a &&& 0xFF00 ||| b.toUInt16).toNat = b.toNat + 2 ^ 8 * (a.toNat / 2 ^ 8) := by
  have bound := b.toNat_lt
  have width := a.toNat_lt
  have mask : (0xFF00 : UInt16).toNat = (2 ^ 8 - 1) <<< 8 := rfl
  have high : a.toNat &&& (2 ^ 8 - 1) <<< 8 = (a.toNat / 2 ^ 8) <<< 8 := by
    rw [← Nat.shiftRight_eq_div_pow]
    apply Nat.eq_of_testBit_eq
    intro i
    rw [Nat.testBit_and, Nat.testBit_shiftLeft, Nat.testBit_shiftLeft, Nat.testBit_two_pow_sub_one,
      Nat.testBit_shiftRight]
    by_cases low : 8 ≤ i
    · rw [Nat.add_sub_cancel' low]
      by_cases below : i < 16
      · have inside : i - 8 < 8 := by omega
        simp [low, inside]
      · have wide : 2 ^ 16 ≤ 2 ^ i := Nat.pow_le_pow_right (by decide) (Nat.not_lt.mp below)
        have beyond : a.toNat.testBit i = false :=
          Nat.testBit_lt_two_pow (Nat.lt_of_lt_of_le width wide)
        simp [beyond]
    · simp [low]
  rw [UInt16.toNat_or, UInt16.toNat_and, mask, high, UInt8.toNat_toUInt16,
    ← Nat.shiftLeft_add_eq_or_of_lt bound, Nat.shiftLeft_eq]
  omega

end CipherMachine
