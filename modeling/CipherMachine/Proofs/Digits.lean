import CipherMachine.Word
import Mathlib.Algebra.Group.Nat.Defs

set_option autoImplicit false

/-!
Binary digits of numbers, the least significant one first.

`binaryDigits` and `binaryValue` are inverse to each other between the numbers below `2 ^ width`
and the lists of `width` digits.
-/

namespace CipherMachine

/-- The lowest `width` binary digits of a number. -/
def binaryDigits (width n : Nat) : List Bool :=
  (List.range width).map n.testBit

@[simp] theorem length_binaryDigits (width n : Nat) : (binaryDigits width n).length = width := by
  simp only [binaryDigits, List.length_map, List.length_range]

@[simp] theorem getElem?_binaryDigits (width n i : Nat) :
    (binaryDigits width n)[i]? = if i < width then some (n.testBit i) else none := by
  unfold binaryDigits
  split <;> simp [*]

theorem binaryDigits_succ (width n : Nat) :
    binaryDigits (width + 1) n = n.testBit 0 :: binaryDigits width (n / 2) := by
  simp only [binaryDigits, List.range_succ_eq_map, List.map_cons, List.map_map]
  congr 1
  apply List.map_congr_left
  intro i _
  exact Nat.testBit_succ n i

/-- The highest digit stands last. -/
theorem binaryDigits_succ_last (width n : Nat) :
    binaryDigits (width + 1) n = binaryDigits width n ++ [n.testBit width] := by
  simp only [binaryDigits, List.range_succ, List.map_append, List.map_cons, List.map_nil]

theorem binaryDigits_congr {width m n : Nat}
    (same : ∀ i < width, m.testBit i = n.testBit i) :
    binaryDigits width m = binaryDigits width n := by
  apply List.map_congr_left
  intro i member
  exact same i (List.mem_range.mp member)

theorem binaryDigits_mod (width n : Nat) :
    binaryDigits width (n % 2 ^ width) = binaryDigits width n := by
  apply binaryDigits_congr
  intro i below
  rw [Nat.testBit_mod_two_pow, decide_eq_true below, Bool.true_and]

/-- Digits under a mask are those of the number or of zero. -/
theorem map_and_binaryDigits (mask : Bool) (width n : Nat) :
    (binaryDigits width n).map (mask && ·) = binaryDigits width (if mask then n else 0) := by
  rw [binaryDigits, binaryDigits, List.map_map]
  apply List.map_congr_left
  intro i _
  cases mask <;> simp

theorem take_binaryDigits {width count : Nat} (n : Nat) (within : count ≤ width) :
    (binaryDigits width n).take count = binaryDigits count n := by
  rw [binaryDigits, ← List.map_take, List.take_range, Nat.min_eq_left within, binaryDigits]

theorem drop_binaryDigits (width count n : Nat) :
    (binaryDigits width n).drop count = binaryDigits (width - count) (n / 2 ^ count) := by
  apply List.ext_getElem?
  intro i
  rw [List.getElem?_drop, getElem?_binaryDigits, getElem?_binaryDigits, Nat.testBit_div_two_pow,
    Nat.add_comm i count]
  congr 1
  exact propext (by omega)

theorem binaryValue_lt (digits : List Bool) : binaryValue digits < 2 ^ digits.length := by
  induction digits with
  | nil => exact Nat.one_pos
  | cons digit rest ih =>
      have low : digit.toNat ≤ 1 := Bool.toNat_le digit
      simp only [binaryValue, List.length_cons, Nat.pow_succ]
      omega

theorem binaryValue_append (low high : List Bool) :
    binaryValue (low ++ high) = binaryValue low + 2 ^ low.length * binaryValue high := by
  induction low with
  | nil => simp [binaryValue]
  | cons digit rest ih =>
      rw [List.cons_append, binaryValue, ih, binaryValue, List.length_cons, Nat.pow_succ',
        Nat.mul_add, Nat.mul_assoc, Nat.add_assoc]

theorem binaryValue_binaryDigits (width n : Nat) :
    binaryValue (binaryDigits width n) = n % 2 ^ width := by
  induction width generalizing n with
  | zero => simp [binaryDigits, binaryValue, Nat.mod_one]
  | succ width ih =>
      rw [binaryDigits_succ, binaryValue, ih, Nat.pow_succ', Nat.mod_mul, Nat.toNat_testBit,
        Nat.pow_zero, Nat.div_one]

theorem binaryDigits_binaryValue (digits : List Bool) :
    binaryDigits digits.length (binaryValue digits) = digits := by
  induction digits with
  | nil => rfl
  | cons digit rest ih =>
      have low : digit.toNat ≤ 1 := Bool.toNat_le digit
      have half : (digit.toNat + 2 * binaryValue rest) / 2 = binaryValue rest := by omega
      rw [List.length_cons, binaryDigits_succ, binaryValue, half, ih]
      cases digit <;> simp

theorem testBit_binaryValue (digits : List Bool) (i : Nat) :
    (binaryValue digits).testBit i = digits.getD i false := by
  have digit := getElem?_binaryDigits digits.length (binaryValue digits) i
  rw [binaryDigits_binaryValue] at digit
  rw [List.getD_eq_getElem?_getD, digit]
  by_cases below : i < digits.length
  · rw [if_pos below, Option.getD_some]
  · rw [if_neg below, Option.getD_none]
    apply Nat.testBit_lt_two_pow
    exact Nat.lt_of_lt_of_le (binaryValue_lt digits)
      (Nat.pow_le_pow_right Nat.two_pos (Nat.not_lt.mp below))

theorem eq_binaryDigits {digits : List Bool} {width n : Nat} (length : digits.length = width)
    (value : binaryValue digits = n % 2 ^ width) : digits = binaryDigits width n := by
  rw [← binaryDigits_mod, ← value, ← length, binaryDigits_binaryValue]

theorem binaryDigits_inj {width m n : Nat} :
    binaryDigits width m = binaryDigits width n ↔ m % 2 ^ width = n % 2 ^ width := by
  constructor
  · intro same
    rw [← binaryValue_binaryDigits, same, binaryValue_binaryDigits]
  · intro same
    rw [← binaryDigits_mod, same, binaryDigits_mod]

theorem binaryDigits_double (width n : Nat) (digit : Bool) :
    binaryDigits (width + 1) (digit.toNat + 2 * n) = digit :: binaryDigits width n := by
  have low : digit.toNat ≤ 1 := Bool.toNat_le digit
  have half : (digit.toNat + 2 * n) / 2 = n := by omega
  rw [binaryDigits_succ, half]
  cases digit <;> simp

theorem binaryDigits_append (low high m n : Nat) :
    binaryDigits (low + high) (m % 2 ^ low + 2 ^ low * n) =
      binaryDigits low m ++ binaryDigits high n := by
  induction low generalizing m with
  | zero => simp [binaryDigits, Nat.mod_one]
  | succ low ih =>
      have split : m % 2 ^ (low + 1) + 2 ^ (low + 1) * n =
          (m.testBit 0).toNat + 2 * (m / 2 % 2 ^ low + 2 ^ low * n) := by
        rw [Nat.pow_succ', Nat.mod_mul, Nat.toNat_testBit, Nat.pow_zero, Nat.div_one,
          Nat.mul_add, Nat.mul_assoc, Nat.add_assoc]
      rw [split, Nat.add_right_comm, binaryDigits_double, ih, binaryDigits_succ,
        List.cons_append]

end CipherMachine
