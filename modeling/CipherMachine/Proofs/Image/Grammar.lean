import CipherMachine.Image.Reader

set_option autoImplicit false

/-!
The text form of an image, said without reading it line by line.

A text is a list of lines, and a line its tokens. `Line.fault?` says what is wrong with a line, by
the first of its checks that fails, and `Line.item` what a line without a fault contributes.
`Item.Denotes` is the meaning of the items of a text: the last setting of a register counts, and
the last word placed in a cell.
-/

namespace CipherMachine

/-- What a line contributes to an image. -/
inductive Item where
  | blank
  | pc (value : UInt16)
  | ac (value : UInt16)
  /-- The address of the next word. -/
  | origin (address : Nat)
  | word (value : UInt16)
  deriving DecidableEq

namespace Item

def pc? : Item → Option UInt16
  | .pc value => some value
  | _ => none

def ac? : Item → Option UInt16
  | .ac value => some value
  | _ => none

def origin? : Item → Option Nat
  | .origin address => some address
  | _ => none

def word? : Item → Option UInt16
  | .word value => some value
  | _ => none

/-- The address of a word behind the given items: that of the last origin, or zero if there is
none, plus the number of words since. -/
def nextAddress (items : List Item) : Nat :=
  (items.reverse.findSome? origin?).getD 0 +
    (items.reverse.takeWhile fun item => item.origin?.isNone).countP fun item => item.word?.isSome

/-- The words among items in their order, with their addresses. -/
def placements (items : List Item) : List (Nat × UInt16) :=
  items.zipIdx.filterMap fun (item, i) =>
    item.word?.map fun word => (nextAddress (items.take i), word)

/-- The image that items denote. Its registers have the last values that are set, or zero. Its words
reach up to the highest address of a placement; each is the last one placed at its address, or zero
if there is none. -/
structure Denotes (items : List Item) (image : Image) : Prop where
  pc : image.pc = (items.reverse.findSome? pc?).getD 0
  ac : image.ac = (items.reverse.findSome? ac?).getD 0
  below : ∀ p ∈ placements items, p.1 < image.words.length
  reached : image.words.length = 0 ∨ ∃ p ∈ placements items, image.words.length = p.1 + 1
  words : ∀ address < image.words.length,
    image.words[address]? = some (((placements items).reverse.lookup address).getD 0)

end Item

abbrev Line := List (List Char)

namespace Line

/-- What is wrong with a token that has to be a number of at most sixteen bits. -/
def numberFault? (token : List Char) : Option LineFault :=
  match Image.numeral? token with
  | none => some (.invalidNumber (String.ofList token))
  | some value => if value < Nat.pow 2 16 then none else some (.outOfRange value)

def number (token : List Char) : UInt16 := UInt16.ofNat ((Image.numeral? token).getD 0)

def directives : List (List Char) := [".pc".toList, ".ac".toList, ".org".toList]

/-- The checks on a line in their order, each with the fault of a line that does not pass it. The
first token tells a directive from a word, which would be placed at the given address. -/
def checks (address : Nat) : Line → List (Option LineFault)
  | [] => []
  | first :: rest =>
    if first.head? = some '.' then
      [if rest = [] then some (.missingValue (String.ofList first)) else none,
        rest.head?.bind numberFault?,
        if first ∈ directives then none else some (.unknownDirective (String.ofList first)),
        rest[1]?.map fun token => .trailingInput (String.ofList token)]
    else
      [numberFault? first,
        if address < Nat.pow 2 maxAddressBits then none else some (.addressOutOfRange address),
        rest[0]?.map fun token => .trailingInput (String.ofList token)]

/-- What is wrong with a line: the fault of the first check that it does not pass. -/
def fault? (address : Nat) (line : Line) : Option LineFault := (line.checks address).findSome? id

/-- What a line without a fault contributes. -/
def item : Line → Item
  | [] => .blank
  | first :: rest =>
    let value := number (rest.headD [])
    if first = ".pc".toList then .pc value
    else if first = ".ac".toList then .ac value
    else if first = ".org".toList then .origin value.toNat
    else .word (number first)

/-- What is wrong with the line of the given index. A word on it would follow the items before. -/
def faultAt (lines : List Line) (i : Nat) : Option LineFault :=
  lines[i]?.bind fun line => line.fault? (Item.nextAddress ((lines.take i).map item))

/-- The error tells of the first line that has a fault, by its number counted from one. -/
def FirstFault (lines : List Line) (error : ReadError) : Prop :=
  ∃ i, error.line = i + 1 ∧ faultAt lines i = some error.fault ∧ ∀ j < i, faultAt lines j = none

end Line

/-- What counts of a line: its tokens in front of a comment. -/
def Text.content (line : List Char) : Line := tokens (withoutComment line)

def Text.contents (text : List Char) : List Line := (lines text).map content

end CipherMachine
