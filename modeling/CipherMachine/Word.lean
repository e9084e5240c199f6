import CipherMachine.Fault

set_option autoImplicit false

/-!
Encrypted bits and words: ciphertexts with the noise estimates that belong to them.

A word lists its bits from the least significant one up. It has no type tag: the same word may
hold an instruction, data or an address.
-/

namespace CipherMachine

structure Bit (C : Type) where
  cipher : C
  noise : Nat
  deriving DecidableEq

/-- A sequence of encrypted bits, the least significant one first. -/
structure Word (C : Type) where
  bits : List (Bit C)
  deriving DecidableEq

namespace Word

variable {C : Type}

def width (w : Word C) : Nat := w.bits.length

/-- The bit with the given index, counted from the least significant one. -/
def bit (w : Word C) (i : Nat) : Except Fault (Bit C) :=
  match w.bits[i]? with
  | some bit => .ok bit
  | none => .error .outOfRange

/-- The bits from index `first` up to, and without, index `last`. -/
def slice (w : Word C) (first last : Nat) : Except Fault (Word C) :=
  if first ≤ last ∧ last ≤ w.width then
    .ok ⟨(w.bits.take last).drop first⟩
  else
    .error .outOfRange

/-- The word with its lowest bits replaced by those of `low`. -/
def withLowBits (w low : Word C) : Except Fault (Word C) :=
  if low.width ≤ w.width then
    .ok ⟨low.bits ++ w.bits.drop low.width⟩
  else
    .error .outOfRange

def maxNoise (w : Word C) : Nat :=
  (w.bits.map Bit.noise).foldl max 0

end Word

/-- The number with the given binary digits, the least significant one first. -/
def binaryValue : List Bool → Nat
  | [] => 0
  | digit :: rest => digit.toNat + 2 * binaryValue rest

end CipherMachine
