import CipherMachine.Image.File
import CipherMachine.Machine.Load
import CipherMachine.Scheme.Integer

set_option autoImplicit false

/-!
Reports: how a command ends, and the text of what went wrong.
-/

namespace CipherMachine.CommandLine

inductive Failure where
  /-- An operation is misused, which ends the program at once. -/
  | fault (cause : Fault)
  | geometry (error : GeometryError)
  /-- The named file yields no image. -/
  | image (path : String) (error : ImageFileError)
  | params (error : IntegerParamsError)
  | fit (error : FitError)
  | load (error : LoadError)
  | registersDiffer (encrypted reference : Registers)
  | memoryDiffers (address : Nat) (encrypted reference : UInt16)
  deriving DecidableEq

namespace Failure

def ofLoad : LoadError → Failure
  | .fault cause => .fault cause
  | error => .load error

def message : Failure → String
  | .fault cause => cause.message?.getD ""
  | .geometry error => error.message
  | .image path _ => s!"failed to load image {path}"
  | .params _ => "invalid integer backend parameters"
  | .fit error => error.message
  | .load error => error.message?.getD ""
  | .registersDiffer encrypted reference =>
    s!"registers differ from the reference\n  encrypted: {encrypted.text}\n" ++
      s!"  reference: {reference.text}"
  | .memoryDiffers address encrypted reference =>
    s!"memory differs from the reference at {Text.markedHex 2 address}: " ++
      s!"{Text.markedHex 4 encrypted.toNat} != {Text.markedHex 4 reference.toNat}"

/-- What caused a failure, from the outside in. -/
def causes : Failure → List String
  | .image _ error => error.messages
  | .params error => [error.message]
  | .fault _ | .geometry _ | .fit _ | .load _ | .registersDiffer .. | .memoryDiffers .. => []

/-- The report of a failure, whose message and causes are laid out by `render`. -/
def report (render : String → List String → String) (failure : Failure) : String :=
  s!"Error: {render failure.message failure.causes}\n"

end Failure

structure Outcome where
  exitCode : UInt8
  /-- The text for the standard output. -/
  output : String
  /-- What to report on the standard error output. -/
  report : String
  /-- Lines of the log. -/
  log : List String
  deriving DecidableEq

namespace Outcome

def success (output : String) : Outcome := ⟨0, output, "", []⟩

/-- Failure, after the given output was written. -/
def failure (output report : String) : Outcome := ⟨1, output, report, []⟩

/-- An abrupt end, before any output. -/
def aborted (report : String) : Outcome := ⟨101, "", report, []⟩

end Outcome

end CipherMachine.CommandLine
