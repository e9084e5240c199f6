set_option autoImplicit false

/-!
Random numbers from a source of bytes.

A number of `n` bits is read from as few whole bytes as hold it, the least significant byte
first, and the bits that the last byte has too many are shifted out. A number below a bound is
drawn by rejection: numbers as long as the bound are drawn until one is below it.

Lengths in bits are unbounded here. Kept in 32 bits they mean the same as long as the bits of all
bytes fit as well: for all lengths but the last seven, and for bounds of such a length.
-/

namespace CipherMachine

/-- A source of bytes with states `R`. -/
structure Source (R : Type) where
  bytes : Nat → R → List UInt8 × R
  length_bytes : ∀ n r, (bytes n r).1.length = n

/-- The number of binary digits of a number. Zero has none. -/
def bitLength (n : Nat) : Nat :=
  if n = 0 then 0 else n.log2 + 1

/-- The bytes that hold a number of the given number of bits. -/
def bytesFor (bits : Nat) : Nat := (bits + 7) / 8

/-- The number with the given bytes as digits of base 256, the least significant one first.
Seven digits are read at once, which is what a small number holds. -/
def byteValue : List UInt8 → Nat
  | a :: b :: c :: d :: e :: f :: g :: rest =>
    a.toNat + 0x100 * b.toNat + 0x10000 * c.toNat + 0x1000000 * d.toNat +
      0x100000000 * e.toNat + 0x10000000000 * f.toNat + 0x1000000000000 * g.toNat +
      0x100000000000000 * byteValue rest
  | byte :: rest => byte.toNat + 0x100 * byteValue rest
  | [] => 0

theorem byteValue_eq_foldr (bytes : List UInt8) :
    byteValue bytes = bytes.foldr (fun byte value => byte.toNat + 0x100 * value) 0 := by
  fun_induction byteValue bytes with
  | case1 a b c d e f g rest ih =>
    rw [ih]
    simp only [List.foldr_cons]
    omega
  | case2 byte rest _ ih => rw [ih, List.foldr_cons]
  | case3 => rfl

theorem byteValue_nil : byteValue [] = 0 := rfl

theorem byteValue_cons (byte : UInt8) (rest : List UInt8) :
    byteValue (byte :: rest) = byte.toNat + 0x100 * byteValue rest := by
  rw [byteValue_eq_foldr, byteValue_eq_foldr, List.foldr_cons]

/-- Shifts bits out of the last byte. -/
def trimLast (excess : Nat) : List UInt8 → List UInt8
  | [] => []
  | [last] => [last >>> UInt8.ofNat excess]
  | byte :: rest => byte :: trimLast excess rest

/-- The number of the given number of bits that bytes stand for. -/
def bitsOfBytes (bits : Nat) (bytes : List UInt8) : Nat :=
  byteValue (trimLast (8 * bytesFor bits - bits) bytes)

namespace Source

variable {R : Type}

/-- A uniform number below `2 ^ bits`. -/
def bits (src : Source R) (bits : Nat) (r : R) : Nat × R :=
  let (bytes, r) := src.bytes (bytesFor bits) r
  (bitsOfBytes bits bytes, r)

/-- A round of rejection sampling: a number as long as the bound, if it is below the bound. -/
def round (src : Source R) (bound : Nat) (r : R) : Option Nat × R :=
  let (candidate, r) := src.bits (bitLength bound) r
  (if candidate < bound then some candidate else none, r)

section

variable (src : Source R) (bound : Nat)

/-- A uniform number below the bound: rounds are made until one of them gives a number. If none
ever does there is no answer. -/
def below (r : R) : Option (Nat × R) :=
  match src.round bound r with
  | (some n, r) => some (n, r)
  | (none, r) => by
    apply below
    exact r
partial_fixpoint

end

end Source

end CipherMachine
