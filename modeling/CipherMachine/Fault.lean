set_option autoImplicit false

/-!
Faults: the ways to misuse an operation, most of them on encrypted bits and words.

Every operation checks its arguments before it touches a ciphertext.
-/

namespace CipherMachine

/-- Why an operation was refused or gave up. -/
inductive Fault where
  /-- No refresh could make a conjunction of fresh ciphertexts decrypt correctly. -/
  | unworkableBudget (budget freshAnd : Nat)
  /-- A word that is too wide for a plaintext number. -/
  | wordTooWide
  /-- A reduction of no bits. -/
  | emptyReduction
  | selectWidths
  /-- A multiplexer without candidates. -/
  | noCandidate
  | candidateWidths
  /-- More bits than a pattern has. -/
  | patternTooWide
  | additionWidths
  | operandWidths
  | addressWidth
  /-- A bit, or a range of bits, that a word does not have. -/
  | outOfRange
  /-- A sum that does not fit 32 bits. -/
  | overflow
  /-- A random draw without end. -/
  | exhausted
  deriving DecidableEq, Repr

/-- The text of a fault. A range error has none, and nothing follows a draw without end. -/
def Fault.message? : Fault → Option String
  | .unworkableBudget budget freshAnd =>
    some s!"noise budget {budget} cannot fit one AND of fresh ciphertexts ({freshAnd})"
  | .wordTooWide => some "words are at most 64 bits wide"
  | .emptyReduction => some "cannot reduce an empty set of bits"
  | .selectWidths => some "select over mismatched widths"
  | .noCandidate => some "mux needs at least one candidate"
  | .candidateWidths => some "mux over mismatched widths"
  | .patternTooWide => some "patterns are at most 64 bits wide"
  | .additionWidths => some "adding words of different widths"
  | .operandWidths => some "combining words of different widths"
  | .addressWidth => some "address width mismatch"
  | .overflow => some "attempt to add with overflow"
  | .outOfRange | .exhausted => none

end CipherMachine
