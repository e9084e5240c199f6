import CipherMachine.Scheme

set_option autoImplicit false

/-!
Schemes that record their calls.

The record holds the kind of each call and nothing of its operands: it is what an observer of the
evaluator sees.
-/

namespace CipherMachine

/-- A call of a scheme's operation. Decryption happens outside the evaluator and is no call. -/
inductive Call where
  | encrypt
  | gate (kind : GateKind)
  | refresh
  deriving DecidableEq, Repr

def Call.letter : Call → Char
  | .encrypt => 'E'
  | .gate .and => 'A'
  | .gate .xor => 'X'
  | .gate .not => 'N'
  | .refresh => 'R'

/-- A scheme's state with the calls made so far, the latest one first. -/
structure Recorded (S : Type) where
  inner : S
  calls : List Call := []

namespace Scheme

/-- The same scheme, recording every call that it answers. -/
def recorded {C S : Type} (scheme : Scheme C S) : Scheme C (Recorded S) where
  noise := scheme.noise
  encrypt bit state :=
    (scheme.encrypt bit state.inner).map fun (cipher, inner) =>
      (cipher, ⟨inner, .encrypt :: state.calls⟩)
  decrypt := scheme.decrypt
  eval gate state :=
    let (cipher, inner) := scheme.eval gate state.inner
    (cipher, ⟨inner, .gate gate.kind :: state.calls⟩)
  refresh cipher state :=
    (scheme.refresh cipher state.inner).map fun (cipher, inner) =>
      (cipher, ⟨inner, .refresh :: state.calls⟩)

end Scheme

end CipherMachine
