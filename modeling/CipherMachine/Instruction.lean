import CipherMachine.Opcode

set_option autoImplicit false

/-!
Instructions and their words.

A word holds the operand in bits 0 to 7, the number of the operation in bits 8 to 11 and the
addressing mode in bit 12. Bits 13 to 15 are ignored when a word is read and clear when one is
written.
-/

namespace CipherMachine

/-- An instruction split into its fields. Of `nibble` only the low four bits count. -/
structure Instruction where
  /-- The number of the operation. -/
  nibble : UInt8
  /-- Whether the accumulator supplies the address; otherwise the operand does. -/
  indirect : Bool
  operand : UInt8
  deriving DecidableEq, Repr

namespace Instruction

/-- The instruction that takes `operand` as its second operand or its address. -/
def direct (op : Opcode) (operand : UInt8) : Instruction :=
  ⟨op.nibble, false, operand⟩

/-- The instruction that addresses memory through the accumulator. -/
def viaAccumulator (op : Opcode) : Instruction :=
  ⟨op.nibble, true, 0⟩

def implied (op : Opcode) : Instruction :=
  direct op 0

def decode (word : UInt16) : Instruction where
  nibble := (word >>> 8).toUInt8 &&& 0xF
  indirect := word &&& 0x1000 != 0
  operand := word.toUInt8

def encode (i : Instruction) : UInt16 :=
  i.indirect.toUInt16 <<< 12 ||| (i.nibble &&& 0xF).toUInt16 <<< 8 ||| i.operand.toUInt16

/-- The operation, or `none` for the unassigned number. -/
def opcode? (i : Instruction) : Option Opcode :=
  Opcode.ofNibble? i.nibble

/-- The assembler's text of an instruction. The operand of `la` is always an immediate. -/
def text (i : Instruction) : String :=
  match i.opcode? with
  | none => "illegal"
  | some op =>
    match op.operandUse with
    | .none => op.mnemonic
    | .immediate =>
      if i.indirect ∧ op ≠ .la then op.mnemonic ++ " [ac]"
      else s!"{op.mnemonic} #{i.operand.toNat}"
    | .address =>
      if i.indirect then op.mnemonic ++ " [ac]"
      else s!"{op.mnemonic} @{i.operand.toNat}"

end Instruction

end CipherMachine
