set_option autoImplicit false

/-!
Lines and tokens of a text, as lists of characters.

A text is cut into lines, a line loses its comment, and what remains is cut into tokens at
white space, which are the characters with the Unicode property `White_Space`. Every function here
recurses on the characters.
-/

namespace CipherMachine.Text

/-- The lines of a text. A line ends at a line feed, which takes a carriage return directly
before it along; a text that ends in a line feed has no empty last line. -/
def lines : List Char → List (List Char)
  | [] => []
  | '\n' :: rest => [] :: lines rest
  | '\r' :: '\n' :: rest => [] :: lines rest
  | c :: rest =>
    match lines rest with
    | [] => [[c]]
    | line :: more => (c :: line) :: more

/-- The pieces between the characters that satisfy `separates`, empty pieces included. -/
def pieces (separates : Char → Bool) : List Char → List (List Char)
  | [] => [[]]
  | c :: rest =>
    match pieces separates rest with
    | [] => [[]]
    | piece :: more => if separates c then [] :: piece :: more else (c :: piece) :: more

/-- The code points with the property `White_Space`, as inclusive ranges in ascending order. -/
def blankRanges : List (Nat × Nat) :=
  [(0x0009, 0x000D), (0x0020, 0x0020), (0x0085, 0x0085), (0x00A0, 0x00A0), (0x1680, 0x1680),
    (0x2000, 0x200A), (0x2028, 0x2029), (0x202F, 0x202F), (0x205F, 0x205F), (0x3000, 0x3000)]

def isBlank (c : Char) : Bool :=
  blankRanges.any fun (low, high) => decide (low ≤ c.toNat) && decide (c.toNat ≤ high)

/-- A line end is white space, so a stray carriage return never becomes part of a token. -/
theorem isBlank_carriageReturn : isBlank '\r' = true := by decide

/-- The tokens of a line: its longest runs of characters that are not white space. -/
def tokens (line : List Char) : List (List Char) :=
  (pieces isBlank line).filter fun piece => !piece.isEmpty

/-- A line up to its first `#`, which starts a comment. -/
def withoutComment (line : List Char) : List Char :=
  line.takeWhile (· != '#')

end CipherMachine.Text
