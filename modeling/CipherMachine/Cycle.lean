import CipherMachine.Gates.Arithmetic
import CipherMachine.Instruction
import CipherMachine.Memory

set_option autoImplicit false

/-!
One cycle on encrypted state: fetch, decode, memory, execute, write back.

Every phase evaluates every candidate and combines the candidates by the decoded selectors, so
the gates of a cycle are the same for every program and every state.
-/

namespace CipherMachine

/-- The register file, encrypted. The program counter is as wide as an address. -/
structure EncryptedRegisters (C : Type) where
  pc : Word C
  ac : Word C
  carry : Bit C
  zero : Bit C
  minus : Bit C
  /-- The last word that the memory stage returned. -/
  staging : Word C

inductive Phase where
  | fetch
  | decode
  | memory
  | execute
  | writeback
  deriving DecidableEq, Repr

def Phase.name : Phase → String
  | .fetch => "fetch"
  | .decode => "decode"
  | .memory => "memory"
  | .execute => "execute"
  | .writeback => "writeback"

/-- What a phase added to the counters. -/
structure PhaseCost where
  phase : Phase
  used : GateStats
  deriving DecidableEq

structure Decoded (C : Type) where
  /-- One selector for every operation, in the order of their numbers. At most one is set. -/
  selectors : List (Bit C)
  indirect : Bit C
  operand : Word C

def Decoded.selector {C : Type} (d : Decoded C) (op : Opcode) : Except Fault (Bit C) :=
  match d.selectors[op.nibble.toNat - 1]? with
  | some selector => .ok selector
  | none => .error .outOfRange

/-- What the execute phase computes for the write-back to choose from. -/
structure Candidates (C : Type) where
  /-- The accumulator's low byte. -/
  low : Word C
  /-- The low byte that the memory stage returned. -/
  loaded : Word C
  left : Word C × Bit C
  right : Word C × Bit C
  sum : Word C × Bit C
  xor : Word C
  and : Word C
  or : Word C
  difference : Word C
  nextPc : Word C

namespace Cycle

variable {C S : Type}

def fetch (G : Gates C S) (schedule : Schedule) (one : Bit C) (r : EncryptedRegisters C)
    (m : Memory C) : GateM S (Word C × Memory C) :=
  m.access G schedule r.pc r.ac one r.staging

/-- Splits a word into the fields of an instruction. -/
def decode (G : Gates C S) (instruction : Word C) : GateM S (Decoded C) := do
  let nibble ← instruction.slice 8 12
  let selectors ← G.matchPatterns nibble.bits (Opcode.all.map fun op => op.nibble.toNat)
  let indirect ← instruction.bit 12
  let operand ← instruction.slice 0 8
  return ⟨selectors, indirect, operand⟩

/-- Computes the effective address, then stores the accumulator there for `store` and reads the
word there for any other operation. Returns the address, the word and the memory. -/
def memoryStage (G : Gates C S) (schedule : Schedule) (d : Decoded C) (r : EncryptedRegisters C)
    (m : Memory C) : GateM S (Word C × Word C × Memory C) := do
  let accumulator ← r.ac.slice 0 r.pc.width
  let operand ← d.operand.slice 0 r.pc.width
  let address ← G.selectWord d.indirect accumulator operand
  let read ← G.not (← d.selector .store)
  let (loaded, m) ← m.access G schedule address r.ac read r.staging
  return (address, loaded, m)

def execute (G : Gates C S) (one : Bit C) (d : Decoded C) (r : EncryptedRegisters C)
    (loaded : Word C) : GateM S (Candidates C) := do
  let a ← r.ac.slice 0 8
  let loaded ← loaded.slice 0 8
  let b ← G.selectWord d.indirect loaded d.operand
  let sum ← G.add a b r.carry
  let xor ← G.xorWord a b
  let and ← G.andWord a b
  let or ← G.orWord a b
  let (difference, _) ← G.add a (← G.notWord b) one
  let nextPc ← G.increment r.pc
  return { low := a, loaded := loaded, left := a.rotateLeft r.carry,
           right := a.rotateRight r.carry, sum := sum, xor := xor, and := and, or := or,
           difference := difference, nextPc := nextPc }

/-- The result of the selected operation. Operations without a result keep the accumulator's low
byte; no selector is set for the unassigned operation, whose result is zero. -/
def result (G : Gates C S) (d : Decoded C) (e : Candidates C) : GateM S (Word C) := do
  let keep ← G.xorAll [← d.selector .store, ← d.selector .clc, ← d.selector .sec,
    ← d.selector .beq, ← d.selector .jmp, ← d.selector .bmi, ← d.selector .cmp]
  G.mux [(← d.selector .load, e.loaded), (← d.selector .la, d.operand),
    (← d.selector .rol, e.left.1), (← d.selector .ror, e.right.1),
    (← d.selector .add, e.sum.1), (← d.selector .xor, e.xor), (← d.selector .and, e.and),
    (← d.selector .or, e.or), (keep, e.low)]

/-- The carry flag: that of the selected operation, or the old one if it writes none. -/
def carry (G : Gates C S) (d : Decoded C) (r : EncryptedRegisters C) (e : Candidates C) :
    GateM S (Bit C) := do
  let add ← d.selector .add
  let rol ← d.selector .rol
  let ror ← d.selector .ror
  let sec ← d.selector .sec
  let written ← G.xorAll [add, rol, ror, ← d.selector .clc, sec]
  let fromAdd ← G.and add e.sum.2
  let fromLeft ← G.and rol e.left.2
  let fromRight ← G.and ror e.right.2
  let kept ← G.and (← G.not written) r.carry
  G.xorAll [fromAdd, fromLeft, fromRight, sec, kept]

/-- The zero flag: that of the difference for a comparison, else whether the result is zero or a
branch on a flag keeps a flag that is set. -/
def zero (G : Gates C S) (d : Decoded C) (r : EncryptedRegisters C) (e : Candidates C)
    (result : Word C) : GateM S (Bit C) := do
  let branch ← G.xor (← d.selector .beq) (← d.selector .bmi)
  let held ← G.and branch r.zero
  let equal ← G.isZero e.difference
  let cleared ← G.isZero result
  let other ← G.or cleared held
  G.select (← d.selector .cmp) equal other

/-- The minus flag: the sign of the difference for a comparison, else the old one. -/
def minus (G : Gates C S) (d : Decoded C) (r : EncryptedRegisters C) (e : Candidates C) :
    GateM S (Bit C) := do
  G.select (← d.selector .cmp) (← e.difference.bit 7) r.minus

/-- Whether the instruction branches, given the flags that it has set. -/
def taken (G : Gates C S) (d : Decoded C) (zero minus : Bit C) : GateM S (Bit C) := do
  let onMinus ← G.and (← d.selector .bmi) minus
  let onZero ← G.and (← d.selector .beq) zero
  G.xorAll [← d.selector .jmp, onMinus, onZero]

/-- Chooses among the candidates and gives the new registers. -/
def writeback (G : Gates C S) (d : Decoded C) (r : EncryptedRegisters C)
    (address loaded : Word C) (e : Candidates C) : GateM S (EncryptedRegisters C) := do
  let result ← result G d e
  let carry ← carry G d r e
  let zero ← zero G d r e result
  let minus ← minus G d r e
  let taken ← taken G d zero minus
  let pc ← G.selectWord taken address e.nextPc
  let ac ← r.ac.withLowBits result
  return { pc := pc, ac := ac, carry := carry, zero := zero, minus := minus, staging := loaded }

/-- Runs a cycle. Returns the new registers and memory, and what each phase cost. -/
def run (G : Gates C S) (schedule : Schedule) (one : Bit C) (r : EncryptedRegisters C)
    (m : Memory C) : GateM S (EncryptedRegisters C × Memory C × List PhaseCost) := do
  let ((instruction, m), fetched) ← GateM.metered (fetch G schedule one r m)
  let (d, decoded) ← GateM.metered (decode G instruction)
  let ((address, loaded, m), staged) ← GateM.metered (memoryStage G schedule d r m)
  let (candidates, executed) ← GateM.metered (execute G one d r loaded)
  let (r, written) ← GateM.metered (writeback G d r address loaded candidates)
  return (r, m, [⟨.fetch, fetched⟩, ⟨.decode, decoded⟩, ⟨.memory, staged⟩,
    ⟨.execute, executed⟩, ⟨.writeback, written⟩])

end Cycle

end CipherMachine
