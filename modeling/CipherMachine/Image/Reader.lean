import CipherMachine.Image
import CipherMachine.Text.Line
import CipherMachine.Text.Numeral

set_option autoImplicit false

/-!
The text form of a program image.

A line holds one item: a word for the next address, or a directive with its value. `.pc` and
`.ac` set the initial registers and `.org` the address of the next word. A `#` starts a comment.

`Draft.readTokens` is the meaning of one line, `Image.read` that of a text. The error of a text
is that of its first faulty line.
-/

namespace CipherMachine

/-- What is wrong with a line. Tokens are reported as they stand in the text. -/
inductive LineFault where
  /-- A token that is no numeral. -/
  | invalidNumber (token : String)
  /-- A numeral whose value does not fit a word. -/
  | outOfRange (value : Nat)
  /-- A word placed past the last address. -/
  | addressOutOfRange (address : Nat)
  | unknownDirective (directive : String)
  | missingValue (directive : String)
  /-- A token behind the line's item. -/
  | trailingInput (token : String)
  deriving DecidableEq

/-- A fault with the number of its line, the first line being line one. -/
structure ReadError where
  line : Nat
  fault : LineFault
  deriving DecidableEq

def LineFault.message : LineFault → String
  | .invalidNumber token => s!"invalid number '{token}'"
  | .outOfRange value => s!"{value} does not fit in 16 bits"
  | .addressOutOfRange address =>
    s!"address {Text.markedHex 1 address} is outside the {maxAddressBits}-bit address space"
  | .unknownDirective directive => s!"unknown directive '{directive}'"
  | .missingValue directive => s!"'{directive}' needs a value"
  | .trailingInput token => s!"unexpected '{token}'"

def ReadError.message (e : ReadError) : String :=
  s!"line {e.line}: {e.fault.message}"

/-- The value of a numeral below `2 ^ 64`: in base sixteen behind `0x` or `0X`, else in base
ten. -/
def Image.numeral? : List Char → Option Nat
  | '0' :: 'x' :: digits => Text.unsignedBelow? 64 16 digits
  | '0' :: 'X' :: digits => Text.unsignedBelow? 64 16 digits
  | digits => Text.unsignedBelow? 64 10 digits

def Image.readWord (token : List Char) : Except LineFault UInt16 :=
  match numeral? token with
  | none => .error (.invalidNumber (String.ofList token))
  | some value =>
    if value < UInt16.size then .ok (UInt16.ofNat value) else .error (.outOfRange value)

/-- An image that is being read: what the lines so far have set, and where the next word goes. -/
structure Draft where
  image : Image := {}
  cursor : Nat := 0
  deriving DecidableEq

namespace Draft

/-- Puts a word at the cursor, with zeros before it where no word stands yet. -/
def place (d : Draft) (word : UInt16) : Except LineFault Draft :=
  if d.cursor < Nat.pow 2 maxAddressBits then
    let words := (d.image.words.rightpad (d.cursor + 1) 0).set d.cursor word
    .ok { image := { d.image with words := words }, cursor := d.cursor + 1 }
  else
    .error (.addressOutOfRange d.cursor)

/-- Carries out the directive with the given name, which stands without its dot. -/
def direct (d : Draft) (name : List Char) (value : UInt16) : Except LineFault Draft :=
  match name with
  | ['p', 'c'] => .ok { d with image := { d.image with pc := value } }
  | ['a', 'c'] => .ok { d with image := { d.image with ac := value } }
  | ['o', 'r', 'g'] => .ok { d with cursor := value.toNat }
  | _ => .error (.unknownDirective (String.ofList ('.' :: name)))

/-- Nothing may stand behind a line's item. -/
def ended : List (List Char) → Except LineFault Unit
  | [] => .ok ()
  | token :: _ => .error (.trailingInput (String.ofList token))

def readTokens (d : Draft) : List (List Char) → Except LineFault Draft
  | [] => .ok d
  | ['.' :: name] => .error (.missingValue (String.ofList ('.' :: name)))
  | ('.' :: name) :: token :: rest => do
    let value ← Image.readWord token
    let next ← d.direct name value
    ended rest
    return next
  | token :: rest => do
    let word ← Image.readWord token
    let next ← d.place word
    ended rest
    return next

/-- Reads lines, the first of which has the given number. -/
def readLines (d : Draft) (number : Nat) : List (List Char) → Except ReadError Draft
  | [] => .ok d
  | line :: rest =>
    match d.readTokens (Text.tokens (Text.withoutComment line)) with
    | .ok next => next.readLines (number + 1) rest
    | .error fault => .error ⟨number, fault⟩

end Draft

def Image.read (text : List Char) : Except ReadError Image :=
  (Draft.readLines {} 1 (Text.lines text)).map Draft.image

end CipherMachine
