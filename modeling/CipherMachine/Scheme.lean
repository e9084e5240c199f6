import CipherMachine.Noise

set_option autoImplicit false

/-!
Homomorphic encryption schemes for single bits.

A scheme encrypts, evaluates gates on ciphertexts and refreshes ciphertexts. It may draw on a
state `S`, such as a random generator, which every operation threads through. An operation that
waits without end for a draw answers `none`.
-/

namespace CipherMachine

inductive Gate (C : Type) where
  | and (left right : C)
  | xor (left right : C)
  | not (input : C)

def Gate.kind {C : Type} : Gate C → GateKind
  | .and _ _ => .and
  | .xor _ _ => .xor
  | .not _ => .not

/-- A scheme with ciphertexts `C` and state `S`. -/
structure Scheme (C S : Type) where
  noise : NoiseModel
  encrypt : Bool → S → Option (C × S)
  decrypt : C → Bool
  eval : Gate C → S → C × S
  /-- A ciphertext of the same bit with the noise of a fresh one. -/
  refresh : C → S → Option (C × S)

namespace Scheme

/-- The scheme without encryption: a ciphertext is the plain bit. Its noise is whatever `noise`
says, so refreshes can be scheduled without a cipher. -/
def plain (noise : NoiseModel) : Scheme Bool Unit where
  noise := noise
  encrypt bit state := some (bit, state)
  decrypt cipher := cipher
  eval gate state :=
    match gate with
    | .and left right => (left && right, state)
    | .xor left right => (left ^^ right, state)
    | .not input => (!input, state)
  refresh cipher state := some (cipher, state)

end Scheme

end CipherMachine
