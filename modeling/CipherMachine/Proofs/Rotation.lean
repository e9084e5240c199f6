import CipherMachine.Proofs.Machine.Decryption
import CipherMachine.Proofs.Tasks
import Mathlib.Data.List.Rotate

set_option autoImplicit false

/-!
Rotations through carry turn a ring.

The carry and the bits of a word form a ring of one more place than the word has bits, also if it
has none. Rotating right turns the ring by one place and rotating left turns it back, so what many
rotations do depends on their number modulo the size of the ring alone.
-/

namespace CipherMachine

open GateM

namespace Word

variable {C : Type}

def turnLeft (p : Word C × Bit C) : Word C × Bit C := p.1.rotateLeft p.2

def turnRight (p : Word C × Bit C) : Word C × Bit C := p.1.rotateRight p.2

/-- The places of the ring: the carry, and the bits from the lowest one up. -/
def ring (p : Word C × Bit C) : List (Bit C) := p.2 :: p.1.bits

@[simp] theorem length_ring (p : Word C × Bit C) : (ring p).length = p.1.width + 1 := rfl

theorem ring_injective : Function.Injective (ring (C := C)) := by
  rintro ⟨⟨bits⟩, carry⟩ ⟨⟨bits'⟩, carry'⟩ same
  obtain ⟨rfl, rfl⟩ := List.cons.inj same
  rfl

theorem turnLeft_concat (rest : List (Bit C)) (top carry : Bit C) :
    turnLeft (⟨rest ++ [top]⟩, carry) = (⟨carry :: rest⟩, top) := by
  unfold turnLeft rotateLeft
  dsimp only
  rw [List.getLast?_concat, List.dropLast_concat]

theorem turnRight_cons (rest : List (Bit C)) (bottom carry : Bit C) :
    turnRight (⟨bottom :: rest⟩, carry) = (⟨rest ++ [carry]⟩, bottom) := rfl

theorem turnRight_turnLeft (p : Word C × Bit C) : turnRight (turnLeft p) = p := by
  obtain ⟨⟨bits⟩, carry⟩ := p
  obtain rfl | ⟨rest, top, rfl⟩ := List.eq_nil_or_concat' bits
  · rfl
  · rw [turnLeft_concat, turnRight_cons]

theorem turnLeft_turnRight (p : Word C × Bit C) : turnLeft (turnRight p) = p := by
  obtain ⟨⟨bits⟩, carry⟩ := p
  cases bits with
  | nil => rfl
  | cons bottom rest => rw [turnRight_cons, turnLeft_concat]

theorem ring_turnRight (p : Word C × Bit C) : ring (turnRight p) = (ring p).rotate 1 := by
  obtain ⟨⟨bits⟩, carry⟩ := p
  cases bits with
  | nil => exact (List.rotate_singleton carry 1).symm
  | cons bottom rest =>
      rw [turnRight_cons, ring, ring, List.rotate_cons_succ, List.rotate_zero, List.cons_append]

theorem ring_iterate_turnRight (k : Nat) (p : Word C × Bit C) :
    ring (turnRight^[k] p) = (ring p).rotate k := by
  induction k with
  | zero => rw [Function.iterate_zero_apply, List.rotate_zero]
  | succ k ih => rw [Function.iterate_succ_apply', ring_turnRight, ih, List.rotate_rotate]

/-- Turning the ring all the way round, any number of times, leaves it as it was. -/
theorem iterate_turnRight_eq_self {k : Nat} {p : Word C × Bit C} (whole : p.1.width + 1 ∣ k) :
    turnRight^[k] p = p := by
  apply ring_injective
  rw [ring_iterate_turnRight, ← List.rotate_mod, length_ring, Nat.mod_eq_zero_of_dvd whole,
    List.rotate_zero]

/-- As many rotations to the left undo rotations to the right. -/
theorem iterate_turnLeft_turnRight (k : Nat) (p : Word C × Bit C) :
    turnLeft^[k] (turnRight^[k] p) = p :=
  Function.LeftInverse.iterate turnLeft_turnRight k p

/-- Rotations to the left are the rotations to the right that are missing to a whole turn. -/
theorem iterate_turnLeft_eq {k l : Nat} {p : Word C × Bit C} (whole : p.1.width + 1 ∣ k + l) :
    turnLeft^[k] p = turnRight^[l] p := by
  have around : turnRight^[k] (turnRight^[l] p) = p := by
    rw [← Function.iterate_add_apply]
    exact iterate_turnRight_eq_self whole
  calc turnLeft^[k] p = turnLeft^[k] (turnRight^[k] (turnRight^[l] p)) := by rw [around]
    _ = turnRight^[l] p := iterate_turnLeft_turnRight k _

theorem width_turnLeft (p : Word C × Bit C) : (turnLeft p).1.width = p.1.width := by
  obtain ⟨⟨bits⟩, carry⟩ := p
  obtain rfl | ⟨rest, top, rfl⟩ := List.eq_nil_or_concat' bits
  · rfl
  · rw [turnLeft_concat, width, width, List.length_append, List.length_cons, List.length_singleton]

end Word

section

variable {C S : Type} (G : Gates C S)

/-- A rotation to the left doubles the number and adds the carry, with the carry out as the digit
above the highest one. -/
theorem Gates.value_turnLeft (p : Word C × Bit C) :
    G.value (Word.turnLeft p).1 + 2 ^ p.1.width * (G.decrypt (Word.turnLeft p).2).toNat =
      2 * G.value p.1 + (G.decrypt p.2).toNat := by
  obtain ⟨⟨bits⟩, carry⟩ := p
  obtain rfl | ⟨rest, top, rfl⟩ := List.eq_nil_or_concat' bits
  · simp [Word.turnLeft, Word.rotateLeft, Word.width, value, decryptBits, binaryValue]
  · have low : G.value ⟨carry :: rest⟩ = (G.decrypt carry).toNat + 2 * G.value ⟨rest⟩ := rfl
    have high : G.value ⟨rest ++ [top]⟩ =
        G.value ⟨rest⟩ + 2 ^ rest.length * (G.decrypt top).toNat := by
      simp only [value, decryptBits, List.map_append, List.map_cons, List.map_nil,
        binaryValue_append, List.length_map, binaryValue, Nat.mul_zero, Nat.add_zero]
    rw [Word.turnLeft_concat, Word.width, List.length_append, List.length_singleton, Nat.pow_succ',
      Nat.mul_assoc]
    dsimp only
    omega

/-- Rotations through carry form a cycle. Those to the left and to the right undo each other, bit by
bit; one more of them than the word has bits lead back to the start; and any number to the left are
the number to the right that is missing to a whole turn. A rotation to the left doubles the number
and adds the carry, of which the digit above the highest one becomes the carry out. Nothing is
evaluated. -/
theorem Word.rotations_cycle (word : Word C) (carry : Bit C) :
    let start := (word, carry)
    let size := word.width + 1
    let doubled := 2 * G.value word + (G.decrypt carry).toNat
    turnRight (turnLeft start) = start ∧ turnLeft (turnRight start) = start ∧
    turnLeft^[size] start = start ∧ turnRight^[size] start = start ∧
    (∀ k, turnLeft^[k] start = turnRight^[size - k % size] start) ∧
    (turnLeft start).1.width = word.width ∧
    G.value (turnLeft start).1 = doubled % 2 ^ word.width ∧
    (G.decrypt (turnLeft start).2).toNat = doubled / 2 ^ word.width ∧
    ∀ s, ((Task.rotateLeft word carry).run G).exec s = (.ok (turnLeft start), s) ∧
      ((Task.rotateRight word carry).run G).exec s = (.ok (turnRight start), s) := by
  intro start size doubled
  have split := G.value_turnLeft start
  have below := G.value_lt (turnLeft start).1
  rw [width_turnLeft] at below
  have parts := (Nat.div_mod_unique (Nat.two_pow_pos word.width)).mpr ⟨split, below⟩
  refine ⟨turnRight_turnLeft start, turnLeft_turnRight start, ?_, ?_, ?_, width_turnLeft start,
    parts.2.symm, parts.1.symm, fun s => ⟨rfl, rfl⟩⟩
  · exact iterate_turnLeft_eq (l := 0) (dvd_refl size)
  · exact iterate_turnRight_eq_self (dvd_refl size)
  · intro k
    apply iterate_turnLeft_eq
    have rest : k % size < size := Nat.mod_lt k (Nat.succ_pos _)
    have turns : k + (size - k % size) = size * (k / size + 1) := by
      have parted := Nat.mod_add_div k size
      rw [Nat.mul_succ]
      omega
    exact ⟨_, turns⟩

end

end CipherMachine
