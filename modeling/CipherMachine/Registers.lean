import CipherMachine.Text.Numeral

set_option autoImplicit false

/-!
The machine's registers in plaintext.
-/

namespace CipherMachine

structure Registers where
  /-- Program counter. -/
  pc : UInt16
  /-- Accumulator. -/
  ac : UInt16
  carry : Bool
  zero : Bool
  minus : Bool
  /-- The last word that the memory stage read. -/
  staging : UInt16
  deriving DecidableEq, Inhabited

namespace Registers

def initial (pc ac : UInt16) : Registers where
  pc := pc
  ac := ac
  carry := false
  zero := false
  minus := false
  staging := 0

/-- The letter of a flag that is set, a dash for one that is clear. -/
def flag (set : Bool) (letter : String) : String :=
  if set then letter else "-"

def text (r : Registers) : String :=
  "pc=" ++ Text.markedHex 2 r.pc.toNat ++ " ac=" ++ Text.markedHex 4 r.ac.toNat ++
    " flags=" ++ flag r.carry "C" ++ flag r.zero "Z" ++ flag r.minus "M" ++
    " staging=" ++ Text.markedHex 4 r.staging.toNat

end Registers

end CipherMachine
