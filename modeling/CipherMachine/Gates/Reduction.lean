import CipherMachine.Gates

set_option autoImplicit false

/-!
Reductions: one bit from a list of bits by a gate with two operands.

A pass combines neighbours and keeps an odd last bit, which halves the list. Passes repeat until
one bit is left, so the circuit is a balanced tree and the gates of one layer are all evaluated
before those of the next.
-/

namespace CipherMachine

/-- A pass: combines neighbours, and keeps an odd last element. -/
def pairwise {S β : Type} (combine : β → β → GateM S β) : List β → GateM S (List β)
  | first :: second :: rest => do
    let head ← combine first second
    let tail ← pairwise combine rest
    return head :: tail
  | [last] => return [last]
  | [] => return []

def passes {S β : Type} (combine : β → β → GateM S β) : Nat → List β → GateM S (List β)
  | 0, layer => return layer
  | n + 1, layer => do passes combine n (← pairwise combine layer)

/-- The passes that bring a list of the given length down to one element. -/
def passCount (length : Nat) : Nat :=
  if length ≤ 1 then 0 else passCount ((length + 1) / 2) + 1

namespace Gates

variable {C S : Type}

def reduce (combine : Bit C → Bit C → GateM S (Bit C)) : List (Bit C) → GateM S (Bit C)
  | [] => throw .emptyReduction
  | first :: rest => do
    let top ← passes combine (passCount (rest.length + 1)) (first :: rest)
    return top.headD first

def andAll (G : Gates C S) (bits : List (Bit C)) : GateM S (Bit C) := reduce G.and bits

def orAll (G : Gates C S) (bits : List (Bit C)) : GateM S (Bit C) := reduce G.or bits

/-- The parity of all bits. -/
def xorAll (G : Gates C S) (bits : List (Bit C)) : GateM S (Bit C) := reduce G.xor bits

end Gates

end CipherMachine
