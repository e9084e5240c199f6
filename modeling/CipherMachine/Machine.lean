import CipherMachine.Event
import CipherMachine.Image

set_option autoImplicit false

/-!
The machine: its parts, one step, and its dump.

A machine owns its gates and the session that they run in, so a step is a function from machines
to machines. It never decrypts anything unless `traceRegisters` asks for it, and then only to
report.
-/

namespace CipherMachine

structure MachineConfig where
  geometry : Geometry := .standard
  /-- Whether the cells of an access may be visited in any order. -/
  parallel : Bool := false
  /-- Whether to decrypt and report the registers after every cycle. -/
  traceRegisters : Bool := false
  deriving DecidableEq

/-- The order in which an access visits cells. Free to choose, a parallel scan takes the cells as
they come. -/
def MachineConfig.schedule (config : MachineConfig) : Schedule :=
  if config.parallel then .ordered (List.range config.geometry.capacity) else .sequential

structure Machine (C S : Type) where
  gates : Gates C S
  config : MachineConfig
  memory : Memory C
  registers : EncryptedRegisters C
  /-- An encryption of one, made when the machine was loaded. -/
  one : Bit C
  session : Session S
  /-- Cycles executed so far. -/
  cycles : Nat

/-- A machine's memory and registers, still encrypted, with its counters. -/
structure Dump (C : Type) where
  memory : List (Word C)
  registers : EncryptedRegisters C
  stats : GateStats
  cycles : Nat

structure PlainDump where
  memory : List UInt16
  registers : Registers
  stats : GateStats
  cycles : Nat
  deriving DecidableEq

namespace Gates

variable {C S : Type}

/-- The low sixteen binary digits of a word. It must be narrow enough to be decrypted. -/
def word16 (G : Gates C S) (word : Word C) : Except Fault UInt16 := do
  return UInt16.ofNat (← G.decryptWord word)

def plainRegisters (G : Gates C S) (r : EncryptedRegisters C) : Except Fault Registers := do
  let pc ← G.word16 r.pc
  let ac ← G.word16 r.ac
  let staging ← G.word16 r.staging
  return { pc := pc, ac := ac, carry := G.decrypt r.carry, zero := G.decrypt r.zero,
           minus := G.decrypt r.minus, staging := staging }

end Gates

namespace Machine

variable {C S : Type}

def stats (m : Machine C S) : GateStats := m.session.stats

def loadedEvent (m : Machine C S) : Event :=
  .loaded m.config.geometry.rows m.config.geometry.cols m.config.parallel

def registersEvent (m : Machine C S) : Except Fault Event := do
  let plain ← m.gates.plainRegisters m.registers
  return .registers m.cycles plain (m.gates.decryptBits m.registers.ac).reverse
    m.registers.ac.maxNoise

/-- What is reported of the registers after a cycle. -/
def reports (m : Machine C S) : Except Fault (List Event) :=
  if m.config.traceRegisters then return [← m.registersEvent] else return []

/-- The machine after a cycle that leaves the given state. -/
def after (m : Machine C S) (registers : EncryptedRegisters C) (memory : Memory C)
    (session : Session S) : Machine C S :=
  { m with registers, memory, session, cycles := m.cycles + 1 }

/-- A cycle of the machine, with what it adds to the counters. -/
def cycle (m : Machine C S) :
    GateM S ((EncryptedRegisters C × Memory C × List PhaseCost) × GateStats) :=
  GateM.metered (Cycle.run m.gates m.config.schedule m.one m.registers m.memory)

/-- Runs one cycle. Returns the next machine and the events of the cycle. -/
def step (m : Machine C S) : Except Fault (Machine C S × List Event) :=
  match m.cycle.exec m.session with
  | (.ok ((registers, memory, costs), used), session) => do
    let next := m.after registers memory session
    let phases := costs.map (Event.phaseComplete m.cycles)
    let reports ← next.reports
    return (next, phases ++ .cycleComplete next.cycles used :: reports)
  | (.error fault, _) => .error fault

def dump (m : Machine C S) : Dump C :=
  ⟨m.memory.cells, m.registers, m.stats, m.cycles⟩

def describe (m : Machine C S) : String :=
  "Machine \x7b config: MachineConfig \x7b geometry: Geometry \x7b " ++
    s!"row_bits: {m.config.geometry.rowBits}, col_bits: {m.config.geometry.colBits}" ++
    " \x7d, " ++ s!"parallel: {m.config.parallel}, " ++
    s!"trace_registers: {m.config.traceRegisters}" ++ " \x7d, " ++
    s!"cycles: {m.cycles}, stats: {m.stats.describe}, .. " ++ "\x7d"

end Machine

def Dump.decrypt {C S : Type} (d : Dump C) (G : Gates C S) : Except Fault PlainDump := do
  let memory ← d.memory.mapM G.word16
  let registers ← G.plainRegisters d.registers
  return ⟨memory, registers, d.stats, d.cycles⟩

end CipherMachine
