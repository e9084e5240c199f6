import CipherMachine.Geometry
import CipherMachine.Text.Numeral

set_option autoImplicit false

/-!
Program images: the machine's state before its first cycle, in plaintext, and the check that an
image fits a memory shape.
-/

namespace CipherMachine

/-- The initial program counter and accumulator, and the memory words from address zero on.
Words that the image does not hold are zero. -/
structure Image where
  pc : UInt16 := 0
  ac : UInt16 := 0
  words : List UInt16 := []
  deriving DecidableEq, Inhabited

inductive FitError where
  /-- The image places a word, at its highest address, past the last memory cell. -/
  | addressOutOfRange (address capacity : Nat)
  /-- The initial program counter is no address. -/
  | pcOutOfRange (pc : UInt16) (addressBits : Nat)
  deriving DecidableEq

def FitError.message : FitError → String
  | .addressOutOfRange address capacity =>
    s!"image places a word at address {Text.markedHex 1 address} " ++
      s!"but memory holds {capacity} words"
  | .pcOutOfRange pc addressBits =>
    s!"initial pc {pc.toNat} does not fit in {addressBits} address bits"

namespace Image

/-- Whether the words and then the program counter fit the shape. -/
def checkFits (image : Image) (g : Geometry) : Except FitError Unit :=
  if g.capacity < image.words.length then
    .error (.addressOutOfRange (image.words.length - 1) g.capacity)
  else if image.pc &&& ~~~g.addressMask ≠ 0 then
    .error (.pcOutOfRange image.pc g.addressBits)
  else
    .ok ()

/-- The words of an image that fits, with zeros up to the capacity of the shape. -/
def memory (image : Image) (g : Geometry) : Except FitError (List UInt16) := do
  image.checkFits g
  return image.words.rightpad g.capacity 0

end Image

end CipherMachine
