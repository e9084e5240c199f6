import CipherMachine.Gates.Reduction

set_option autoImplicit false

/-!
Patterns and selection.

A pattern matches bits if the conjunction of all bits holds, each negated where the pattern has a
zero. Several patterns share the negations. Under encrypted selectors every candidate is evaluated,
whichever one is selected.
-/

namespace CipherMachine.Gates

variable {C S : Type}

/-- The negation of every bit, counted from index `i` on, that some pattern needs negated. -/
def negations (G : Gates C S) (patterns : List Nat) :
    Nat → List (Bit C) → GateM S (List (Option (Bit C)))
  | _, [] => return []
  | i, bit :: rest => do
    let negated ←
      if patterns.any fun pattern => !pattern.testBit i then some <$> G.not bit else pure none
    let others ← G.negations patterns (i + 1) rest
    return negated :: others

/-- The bits, from index `i` on, with those negated where the pattern has a zero. -/
def literals (pattern : Nat) : Nat → List (Bit C) → List (Option (Bit C)) → List (Bit C)
  | i, bit :: bits, negated :: others =>
    (if pattern.testBit i then bit else negated.getD bit) :: literals pattern (i + 1) bits others
  | _, _, _ => []

/-- For each pattern, whether the bits are its binary digits. -/
def matchPatterns (G : Gates C S) (bits : List (Bit C)) (patterns : List Nat) :
    GateM S (List (Bit C)) := do
  if 64 < bits.length then throw .patternTooWide
  let negated ← G.negations patterns 0 bits
  patterns.mapM fun pattern => G.andAll (literals pattern 0 bits negated)

def matchPattern (G : Gates C S) (bits : List (Bit C)) (pattern : Nat) : GateM S (Bit C) := do
  if 64 < bits.length then throw .patternTooWide
  let negated ← G.negations [pattern] 0 bits
  G.andAll (literals pattern 0 bits negated)

/-- `chosen` if the selector is set and `other` otherwise: `other` plus the masked difference. -/
def select (G : Gates C S) (selector chosen other : Bit C) : GateM S (Bit C) := do
  let difference ← G.xor chosen other
  let masked ← G.and selector difference
  G.xor other masked

def selectWord (G : Gates C S) (selector : Bit C) (chosen other : Word C) : GateM S (Word C) := do
  if chosen.width ≠ other.width then throw .selectWidths
  let bits ← (chosen.bits.zip other.bits).mapM fun (a, b) => G.select selector a b
  return ⟨bits⟩

/-- The multiplexer: the sum of the candidates, each masked by its selector. It gives the
candidate whose selector is set, and zero if none is. -/
def mux (G : Gates C S) : List (Bit C × Word C) → GateM S (Word C)
  | [] => throw .noCandidate
  | first :: rest => do
    let terms := first :: rest
    let width := first.2.width
    if terms.any fun term => term.2.width != width then throw .candidateWidths
    let bits ← (List.range width).mapM fun i => do
      let masked ← terms.mapM fun (selector, word) => do G.and selector (← word.bit i)
      G.xorAll masked
    return ⟨bits⟩

end CipherMachine.Gates
