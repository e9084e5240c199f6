import CipherMachine.Listing
import CipherMachine.Machine.Load

set_option autoImplicit false

/-!
Runs of many cycles.

A run checks a stop flag before every cycle and never leaves a cycle unfinished. After every
cycle an observer sees the machine and decides what it leaves in the flag. The observer may have
effects of its own, such as reading a clock.
-/

namespace CipherMachine

/-- The outcome of a run: the machine, the cycles that the run completed, and its events. -/
structure Run (C S : Type) where
  machine : Machine C S
  completed : Nat
  events : List Event

namespace Machine

variable {C S : Type} {m : Type → Type}

/-- The cycles of a run of which `completed` are done, with the events so far in reverse. -/
def cyclesFrom [Monad m] (observe : Machine C S → m Bool) :
    Nat → Nat → Bool → List Event → Machine C S → m (Except Fault (Run C S))
  | 0, completed, _, events, machine => return .ok ⟨machine, completed, events.reverse⟩
  | _ + 1, completed, true, events, machine =>
    return .ok ⟨machine, completed, (.stopRequested completed :: events).reverse⟩
  | n + 1, completed, false, events, machine =>
    match machine.step with
    | .ok (next, happened) => do
      let stop ← observe next
      cyclesFrom observe n (completed + 1) stop (happened.reverse ++ events) next
    | .error fault => return .error fault

/-- Runs up to `n` cycles, starting with the given stop flag and calling the observer after every
cycle. -/
def runObserved [Monad m] (machine : Machine C S) (n : Nat) (stop : Bool)
    (observe : Machine C S → m Bool) : m (Except Fault (Run C S)) := do
  let result ← cyclesFrom observe n 0 stop [.running n] machine
  return result.map fun run =>
    { run with
      events := run.events ++ [.runFinished run.machine.cycles run.machine.stats] }

/-- Runs up to `n` cycles with a stop flag that stays as it is. -/
def runUntil (machine : Machine C S) (n : Nat) (stop : Bool) : Except Fault (Run C S) :=
  Id.run (machine.runObserved n stop fun _ => pure stop)

def run (machine : Machine C S) (n : Nat) : Except Fault (Run C S) :=
  machine.runUntil n false

end Machine

/-- Loads an image, runs it for exactly `n` cycles and decrypts what is left. -/
def execute {C S : Type} (scheme : Scheme C S) (config : MachineConfig)
    (image : EncryptedImage C) (n : Nat) (state : S) : Except LoadError PlainDump := do
  let machine ← Machine.load scheme config image state
  let run ← (machine.run n).mapError LoadError.fault
  (run.machine.dump.decrypt run.machine.gates).mapError LoadError.fault

def PlainDump.text (d : PlainDump) : String :=
  s!"cycles: {d.cycles}\ngates: {d.stats.text}\n{d.registers.text}\n" ++ Listing.render d.memory

end CipherMachine
