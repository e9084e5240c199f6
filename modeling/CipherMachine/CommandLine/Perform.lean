import CipherMachine.CommandLine.Report
import CipherMachine.CommandLine.Request
import CipherMachine.Listing
import CipherMachine.Interpreter
import CipherMachine.Machine.Run

set_option autoImplicit false

/-!
Performing requests.

Commands see the outside only through a `Host`, which reads files and a clock. The command line, the
layout of reports, the random generator and the derivation of keys come from `Libraries`. A command
answers with what is to be written and the exit code, unless it waits for a random draw that has no
end.
-/

namespace CipherMachine.CommandLine

/-- What a command needs from its surroundings. -/
structure Host (m : Type → Type) where
  /-- The bytes of the named file. -/
  read : String → m (Except FileError ByteArray)
  /-- Nanoseconds on a clock that never goes back. -/
  clock : m Nat

/-- What the program takes from libraries. -/
structure Libraries where
  /-- Reads a command line. One that makes no request is answered at once. -/
  parse : List String → Except Outcome Request
  /-- Lays out a message with its causes, from the outside in. -/
  render : String → List String → String
  Generator : Type
  source : Source Generator
  /-- The generator that starts from 32 bytes. -/
  ofSeed : List UInt8 → Generator
  /-- Derives 32 bytes from a secret, for the use that the first argument names. -/
  deriveKey : List UInt8 → List UInt8 → List UInt8

def Libraries.ofPassphrase (libs : Libraries) (passphrase : String) : libs.Generator :=
  libs.ofSeed (seedOfPassphrase libs.deriveKey passphrase)

structure Executed where
  dump : PlainDump
  completed : Nat
  events : List Event

variable {m : Type → Type} [Monad m]

/-- Whether a run that took the given nanoseconds has reached its limit in seconds. -/
def limitReached (limit : Option Nat) (elapsed : Nat) : Bool :=
  limit.any fun seconds => decide (seconds * 1000000000 ≤ elapsed)

/-- Loads and runs an image. The run stops after the first cycle that ends past the limit. -/
def executeWithin {C S : Type} (host : Host m) (limit : Option Nat) (scheme : Scheme C S)
    (state : S) (config : MachineConfig) (image : Image) (cycles : Nat) :
    ExceptT LoadError m Executed := do
  let machine ← Machine.ofImage scheme config image state
  let start ← host.clock
  let run ← machine.runObserved cycles false fun _ => do
    return limitReached limit ((← host.clock) - start)
  let run ← run.mapError LoadError.fault
  let dump ← (run.machine.dump.decrypt run.machine.gates).mapError LoadError.fault
  return ⟨dump, run.completed, machine.loadedEvent :: run.events⟩

def executeOn (libs : Libraries) (host : Host m) (task : Task) (options : RunOptions)
    (config : MachineConfig) (image : Image) : ExceptT Failure m Executed :=
  match options.backend with
  | .cleartext =>
    (executeWithin host options.timeLimit (Scheme.plain .noiseless) () config image
      task.cycles).adapt Failure.ofLoad
  | .integer => do
    let (keys, generator) ← (IntegerKeys.ofSource options.params libs.source
      (libs.ofPassphrase options.seed)).mapError Failure.params
    (executeWithin host options.timeLimit (keys.scheme libs.source) generator config image
      task.cycles).adapt Failure.ofLoad

def loadImage (host : Host m) (path : String) : ExceptT Failure m Image := do
  let bytes ← host.read path
  (bytes.mapError ImageFileError.unreadable >>= Image.ofBytes).mapError (Failure.image path)

/-- The memory shape that a task asks for. -/
def Task.shape (task : Task) : Except Failure Geometry := do
  let judged ← (Geometry.make task.rowBits task.colBits).mapError Failure.fault
  judged.mapError Failure.geometry

def prepare (host : Host m) (task : Task) : ExceptT Failure m (Geometry × Image) := do
  let geometry ← task.shape
  let image ← loadImage host task.image
  return (geometry, image)

/-- Compares a dump with what the interpreter makes of the image in as many cycles: the registers
first, then memory from address zero on. -/
def checkDump (g : Geometry) (image : Image) (dump : PlainDump) : Except Failure Unit := do
  let reference ← (Interpreter.load g image).mapError Failure.fit
  let reference := reference.run dump.cycles
  if dump.registers ≠ reference.registers then
    throw (.registersDiffer dump.registers reference.registers)
  let cells := (dump.memory.zip reference.memory.toList).zipIdx
  match cells.find? fun (words, _) => words.1 != words.2 with
  | some ((encrypted, plain), address) => throw (.memoryDiffers address encrypted plain)
  | none => return ()

/-- The log of a run: its events, if they are traced, and a warning if it stopped early. -/
def runLog (trace : Bool) (cycles : Nat) (executed : Executed) : List String :=
  (if trace then executed.events.map Event.text else []) ++
    if executed.completed < cycles then
      [s!"WARN time limit reached, stopped early completed={executed.completed} cycles={cycles}"]
    else []

def run (libs : Libraries) (host : Host m) (task : Task) (options : RunOptions) :
    ExceptT Failure m Outcome := do
  let (geometry, image) ← prepare host task
  let executed ← executeOn libs host task options ⟨geometry, options.parallel, options.trace⟩ image
  let output := executed.dump.text
  let outcome :=
    if options.check then
      match checkDump geometry image executed.dump with
      | .ok () => Outcome.success (output ++ "check: ok\n")
      | .error failure => Outcome.failure output (failure.report libs.render)
    else Outcome.success output
  return { outcome with log := runLog options.trace task.cycles executed }

def reference (host : Host m) (task : Task) : ExceptT Failure m Outcome := do
  let (geometry, image) ← prepare host task
  let machine ← (Interpreter.load geometry image).mapError Failure.fit
  let machine := machine.run task.cycles
  return .success (s!"cycles: {machine.cycles}\n{machine.registers.text}\n" ++
    Listing.render machine.memory.toList)

def disasm (host : Host m) (path : String) : ExceptT Failure m Outcome := do
  return .success (Disassembly.render (← loadImage host path))

/-- How a command ends that fails before it writes anything. -/
def Failure.outcome? (libs : Libraries) : Failure → Option Outcome
  | .fault .exhausted => none
  | .fault cause => some (.aborted ((Failure.fault cause).message))
  | failure => some (.failure "" (failure.report libs.render))

def perform (libs : Libraries) (host : Host m) (request : Request) : m (Option Outcome) := do
  match ← (command request).run with
  | .ok outcome => return some outcome
  | .error failure => return failure.outcome? libs
where
  command : Request → ExceptT Failure m Outcome
  | .run task options => run libs host task options
  | .reference task => reference host task
  | .disasm path => disasm host path

def respond (libs : Libraries) (host : Host m) (arguments : List String) : m (Option Outcome) :=
  match libs.parse arguments with
  | .ok request => perform libs host request
  | .error outcome => return some outcome

end CipherMachine.CommandLine
