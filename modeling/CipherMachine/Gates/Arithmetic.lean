import CipherMachine.Gates.Reduction

set_option autoImplicit false

/-!
Arithmetic and logic on encrypted words.

Every operation evaluates the same gates whatever its operands hold.
-/

namespace CipherMachine

/-- The word shifted one place up with the carry as its new lowest bit, and its old highest bit
as the carry out. The empty word stays as it is. -/
def Word.rotateLeft {C : Type} (word : Word C) (carry : Bit C) : Word C × Bit C :=
  match word.bits.getLast? with
  | some top => (⟨carry :: word.bits.dropLast⟩, top)
  | none => (word, carry)

/-- The word shifted one place down with the carry as its new highest bit, and its old lowest bit
as the carry out. The empty word stays as it is. -/
def Word.rotateRight {C : Type} (word : Word C) (carry : Bit C) : Word C × Bit C :=
  match word.bits with
  | bottom :: rest => (⟨rest ++ [carry]⟩, bottom)
  | [] => (word, carry)

namespace Gates

variable {C S : Type}

/-- The carry chain of an addition, on pairs of bits of the same weight: the digits of the sum
and the carry out. -/
def ripple (G : Gates C S) : List (Bit C × Bit C) → Bit C → GateM S (List (Bit C) × Bit C)
  | [], carry => return ([], carry)
  | (a, b) :: rest, carry => do
    let half ← G.xor a b
    let digit ← G.xor half carry
    let generated ← G.and a b
    let propagated ← G.and half carry
    let next ← G.xor generated propagated
    let (digits, out) ← G.ripple rest next
    return (digit :: digits, out)

/-- The sum of two words of one width and a carry: a word of that width and the carry out. -/
def add (G : Gates C S) (left right : Word C) (carry : Bit C) : GateM S (Word C × Bit C) := do
  if left.width ≠ right.width then throw .additionWidths
  let (digits, out) ← G.ripple (left.bits.zip right.bits) carry
  return (⟨digits⟩, out)

/-- The digits above the lowest one of a word to which one was added, where `carry` runs into the
first of them. The carry out of the highest digit is never computed. -/
def propagate (G : Gates C S) : Bit C → List (Bit C) → GateM S (List (Bit C))
  | _, [] => return []
  | carry, [top] => return [← G.xor top carry]
  | carry, bit :: rest => do
    let digit ← G.xor bit carry
    let next ← G.and bit carry
    let digits ← G.propagate next rest
    return digit :: digits

/-- The word plus one, modulo the power of two of its width. -/
def increment (G : Gates C S) (word : Word C) : GateM S (Word C) :=
  match word.bits with
  | [] => return word
  | first :: rest => do
    let low ← G.not first
    let digits ← G.propagate first rest
    return ⟨low :: digits⟩

/-- Whether all bits of a word are clear. -/
def isZero (G : Gates C S) (word : Word C) : GateM S (Bit C) := do
  G.not (← G.orAll word.bits)

def notWord (G : Gates C S) (word : Word C) : GateM S (Word C) := do
  return ⟨← word.bits.mapM G.not⟩

def zipWord (combine : Bit C → Bit C → GateM S (Bit C)) (left right : Word C) :
    GateM S (Word C) := do
  if left.width ≠ right.width then throw .operandWidths
  let bits ← (left.bits.zip right.bits).mapM fun (a, b) => combine a b
  return ⟨bits⟩

def andWord (G : Gates C S) (left right : Word C) : GateM S (Word C) := zipWord G.and left right

def xorWord (G : Gates C S) (left right : Word C) : GateM S (Word C) := zipWord G.xor left right

def orWord (G : Gates C S) (left right : Word C) : GateM S (Word C) := zipWord G.or left right

end Gates

end CipherMachine
