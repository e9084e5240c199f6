import CipherMachine.Image
import CipherMachine.Instruction
import CipherMachine.Registers

set_option autoImplicit false

/-!
The plaintext interpreter: what a cycle does, said on plain words.

The encrypted machine computes the same cycle gate by gate. The interpreter therefore also says
what the unassigned operation does and what the staging register holds.
-/

namespace CipherMachine

structure Interpreter where
  geometry : Geometry
  memory : Array UInt16
  registers : Registers
  /-- Cycles executed so far. -/
  cycles : Nat
  deriving DecidableEq

namespace Interpreter

/-- The machine before its first cycle: the image in memory and registers, all else zero. -/
def load (g : Geometry) (image : Image) : Except FitError Interpreter := do
  let memory ← image.memory g
  return ⟨g, memory.toArray, .initial image.pc image.ac, 0⟩

/-- The word in the cell that the address bits of `address` name. -/
def wordAt (g : Geometry) (memory : Array UInt16) (address : UInt16) : UInt16 :=
  memory.getD (address &&& g.addressMask).toNat 0

/-- The effective address: the address bits of the accumulator or of the operand. -/
def effectiveAddress (g : Geometry) (ac : UInt16) (i : Instruction) : UInt16 :=
  (if i.indirect then ac else i.operand.toUInt16) &&& g.addressMask

/-- The memory stage: `store` writes the accumulator and keeps the staging register, every other
operation reads the word at the effective address into the staging register. -/
def memoryStage (g : Geometry) (memory : Array UInt16) (r : Registers) (op : Option Opcode)
    (address : UInt16) : Array UInt16 × UInt16 :=
  if op = some .store then
    (memory.setIfInBounds address.toNat r.ac, r.staging)
  else
    (memory, wordAt g memory address)

/-- The result byte and carry flag of an operation on the accumulator's low byte `a`, the second
operand `b`, the operand byte, the low byte of the staging register and the carry flag. No result
is selected for the unassigned operation, which therefore gives zero. -/
def result (op : Option Opcode) (a b operand loaded : UInt8) (carry : Bool) : UInt8 × Bool :=
  match op with
  | some .load => (loaded, carry)
  | some .la => (operand, carry)
  | some .rol => (a <<< 1 ||| carry.toUInt8, decide (0x80 ≤ a))
  | some .ror => (a >>> 1 ||| carry.toUInt8 <<< 7, a % 2 == 1)
  | some .add =>
    let sum := a.toUInt16 + b.toUInt16 + carry.toUInt16
    (sum.toUInt8, decide (0xFF < sum))
  | some .xor => (a ^^^ b, carry)
  | some .and => (a &&& b, carry)
  | some .or => (a ||| b, carry)
  | some .clc => (a, false)
  | some .sec => (a, true)
  | some .store | some .beq | some .jmp | some .bmi | some .cmp => (a, carry)
  | none => (0, carry)

/-- The zero and minus flags. A comparison sets both from its difference. Any other operation
leaves minus and sets zero if its result is zero, and the two branches on a flag keep a zero flag
that is set. -/
def flags (op : Option Opcode) (result difference : UInt8) (zero minus : Bool) : Bool × Bool :=
  if op = some .cmp then
    (difference == 0, decide (0x80 ≤ difference))
  else
    (result == 0 || (zero && (op == some .beq || op == some .bmi)), minus)

def branches (op : Option Opcode) (zero minus : Bool) : Bool :=
  op == some .jmp || (op == some .bmi && minus) || (op == some .beq && zero)

/-- The registers after an instruction whose memory stage left `staging`. -/
def nextRegisters (g : Geometry) (r : Registers) (i : Instruction) (address staging : UInt16) :
    Registers :=
  let op := i.opcode?
  let a := r.ac.toUInt8
  let b := if i.indirect then staging.toUInt8 else i.operand
  let (result, carry) := result op a b i.operand staging.toUInt8 r.carry
  let (zero, minus) := flags op result (a - b) r.zero r.minus
  { pc := if branches op zero minus then address else (r.pc + 1) &&& g.addressMask
    ac := (r.ac &&& 0xFF00) ||| result.toUInt16
    carry := carry
    zero := zero
    minus := minus
    staging := staging }

/-- One cycle: fetch, decode, memory stage, execute, write back. -/
def step : Interpreter → Interpreter
  | ⟨g, memory, r, cycles⟩ =>
    let i := Instruction.decode (wordAt g memory r.pc)
    let address := effectiveAddress g r.ac i
    let (memory, staging) := memoryStage g memory r i.opcode? address
    ⟨g, memory, nextRegisters g r i address staging, cycles + 1⟩

def run (m : Interpreter) : Nat → Interpreter
  | 0 => m
  | n + 1 => m.step.run n

end Interpreter

end CipherMachine
