import CipherMachine.CommandLine.Standard

set_option autoImplicit false

/-!
The program: answers its command line with the files and the clock of the system.
-/

namespace CipherMachine

/-- The number and the words of a system error. The number is negative where the failed call
reports it so. -/
def FileError.ofSystem : IO.Error → FileError
  | .noFileOrDirectory _ code details | .interrupted _ code details
  | .alreadyExists _ code details | .invalidArgument _ code details
  | .permissionDenied _ code details | .resourceExhausted _ code details
  | .inappropriateType _ code details | .noSuchThing _ code details
  | .otherError code details | .resourceBusy code details | .resourceVanished code details
  | .unsupportedOperation code details | .hardwareFault code details
  | .unsatisfiedConstraints code details | .illegalOperation code details
  | .protocolError code details | .timeExpired code details =>
    .ofCode code.toInt32.toInt.natAbs details
  | .unexpectedEof => ⟨"unexpected end of file", 0⟩
  | .userError details => ⟨details, 0⟩

def CommandLine.Host.system : Host IO where
  read path := do
    try
      return .ok (← IO.FS.readBinFile path)
    catch error =>
      return .error (.ofSystem error)
  clock := IO.monoNanosNow

end CipherMachine

/-- Writes the log, the output and the report, and ends with the exit code. -/
def main (arguments : List String) : IO UInt32 := do
  let some outcome ← CipherMachine.CommandLine.respond .standard .system arguments | return 1
  outcome.log.forM IO.eprintln
  IO.print outcome.output
  IO.eprint outcome.report
  return outcome.exitCode.toUInt32
