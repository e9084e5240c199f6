set_option autoImplicit false

/-!
The fifteen operations of the machine and their numbers. Number zero is unassigned.
-/

namespace CipherMachine

/-- An operation. `B` stands for the second operand, `EA` for the effective address. -/
inductive Opcode where
  /-- Sets the flags from the accumulator's low byte minus `B`. -/
  | cmp
  /-- Branches to `EA` if minus. -/
  | bmi
  /-- Loads the operand byte into the accumulator's low byte. -/
  | la
  /-- Branches to `EA`. -/
  | jmp
  /-- Branches to `EA` if zero. -/
  | beq
  /-- Bitwise disjunction of the low byte with `B`. -/
  | or
  /-- Bitwise conjunction of the low byte with `B`. -/
  | and
  /-- Bitwise exclusive disjunction of the low byte with `B`. -/
  | xor
  /-- Sets carry. -/
  | sec
  /-- Clears carry. -/
  | clc
  /-- Adds `B` and carry to the low byte, with the carry out in carry. -/
  | add
  /-- Rotates the low byte right through carry. -/
  | ror
  /-- Rotates the low byte left through carry. -/
  | rol
  /-- Loads the low byte of the word at `EA`. -/
  | load
  /-- Stores the accumulator at `EA`. -/
  | store
  deriving DecidableEq, Repr

inductive OperandUse where
  | none
  | immediate
  | address
  deriving DecidableEq

namespace Opcode

/-- Every operation, in the order of the numbers. -/
def all : List Opcode :=
  [cmp, bmi, la, jmp, beq, or, and, xor, sec, clc, add, ror, rol, load, store]

/-- The number of an operation, from one to fifteen. -/
def nibble : Opcode → UInt8
  | cmp => 1
  | bmi => 2
  | la => 3
  | jmp => 4
  | beq => 5
  | or => 6
  | and => 7
  | xor => 8
  | sec => 9
  | clc => 10
  | add => 11
  | ror => 12
  | rol => 13
  | load => 14
  | store => 15

/-- The operation with the number in the low four bits of a byte. -/
def ofNibble? (nibble : UInt8) : Option Opcode :=
  match (nibble &&& 0xF).toNat with
  | 0 => none
  | n + 1 => all[n]?

def mnemonic : Opcode → String
  | cmp => "cmp"
  | bmi => "bmi"
  | la => "la"
  | jmp => "jmp"
  | beq => "beq"
  | or => "or"
  | and => "and"
  | xor => "xor"
  | sec => "sec"
  | clc => "clc"
  | add => "add"
  | ror => "ror"
  | rol => "rol"
  | load => "load"
  | store => "store"

def ofMnemonic? (name : String) : Option Opcode :=
  all.find? fun op => op.mnemonic == name

def operandUse : Opcode → OperandUse
  | sec | clc | ror | rol => .none
  | cmp | la | or | and | xor | add => .immediate
  | bmi | jmp | beq | load | store => .address

end Opcode

end CipherMachine
