set_option autoImplicit false

/-!
Unsigned numerals: reading them in base ten or sixteen, and writing them in base sixteen.

Reading computes the exact value of the digits first and compares it with the limit afterwards,
so leading zeros never count against a numeral.
-/

namespace CipherMachine.Text

/-- The value of a digit, letters standing for ten to fifteen in either case. -/
def digitValue? (c : Char) : Option Nat :=
  if '0' ≤ c ∧ c ≤ '9' then some (c.toNat - '0'.toNat)
  else if 'a' ≤ c ∧ c ≤ 'f' then some (c.toNat - 'a'.toNat + 10)
  else if 'A' ≤ c ∧ c ≤ 'F' then some (c.toNat - 'A'.toNat + 10)
  else none

def digitOf? (base : Nat) (c : Char) : Option Nat :=
  (digitValue? c).filter (· < base)

/-- Appends digits to the number read so far; `none` at the first character that is no digit. -/
def appendDigits? (base : Nat) : Nat → List Char → Option Nat
  | value, [] => some value
  | value, c :: rest =>
    match digitOf? base c with
    | some digit => appendDigits? base (value * base + digit) rest
    | none => none

/-- The value of one or more digits. -/
def digits? (base : Nat) : List Char → Option Nat
  | [] => none
  | digits => appendDigits? base 0 digits

/-- The value of one or more digits after an optional plus sign. -/
def unsigned? (base : Nat) : List Char → Option Nat
  | '+' :: digits => digits? base digits
  | digits => digits? base digits

/-- An unsigned numeral whose value is below `2 ^ bits`. -/
def unsignedBelow? (bits base : Nat) (text : List Char) : Option Nat :=
  (unsigned? base text).filter (· < Nat.pow 2 bits)

/-- The lower-case digits of a number in base sixteen, with zeros in front up to `width`. -/
def hex (width n : Nat) : String :=
  String.ofList ((Nat.toDigits 16 n).leftpad width '0')

def markedHex (width n : Nat) : String :=
  "0x" ++ hex width n

end CipherMachine.Text
