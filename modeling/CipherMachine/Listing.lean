import CipherMachine.Image
import CipherMachine.Instruction

set_option autoImplicit false

/-!
Listings.

A memory is listed in lines of eight words in base sixteen, each behind the address of its first
word. An image is disassembled: every word has a line of its own, with its address and its
instruction.
-/

namespace CipherMachine

namespace Listing

def wordsPerLine : Nat := 8

def line (address : Nat) (words : List UInt16) : String :=
  Text.hex 4 address ++ ":" ++ String.join (words.map fun word => " " ++ Text.hex 4 word.toNat)
    ++ "\n"

def lines (address : Nat) (words : List UInt16) : List String :=
  match words with
  | [] => []
  | word :: rest =>
    line address ((word :: rest).take wordsPerLine) ::
      lines (address + wordsPerLine) ((word :: rest).drop wordsPerLine)
termination_by words.length
decreasing_by
  simp only [wordsPerLine, List.length_drop, List.length_cons]
  omega

/-- The listing of a memory. -/
def render (memory : List UInt16) : String :=
  String.join (lines 0 memory)

end Listing

namespace Disassembly

def line (address : Nat) (word : UInt16) : String :=
  s!"{Text.hex 4 address}: {Text.hex 4 word.toNat}  {(Instruction.decode word).text}\n"

/-- The initial registers and then every word of an image. -/
def render (image : Image) : String :=
  s!".pc {Text.markedHex 2 image.pc.toNat}\n.ac {Text.markedHex 4 image.ac.toNat}\n" ++
    String.join (image.words.zipIdx.map fun (word, address) => line address word)

end Disassembly

end CipherMachine
