import CipherMachine.CommandLine.Standard
import CipherMachine.Proofs.CommandLine.Execution
import CipherMachine.Proofs.IntegerCorrectness
import CipherMachine.Proofs.PlainBit

set_option autoImplicit false

/-!
The commands `run` and `reference` agree.

Both prepare the image in the same way, and refuse the same images with the same words. What is left
is shown alike: the checked run writes what the interpretation writes, a line of gate counts and the
line of the check apart. Address bits whose sum does not fit 32 bits end both commands abruptly.

Nothing depends on the libraries, but that the generator of the integer backend goes on delivering
bytes from which a number below a bound can be drawn.
-/

namespace CipherMachine

namespace CommandLine

variable {σ : Type}

/-- A checked run and an interpretation of the same image end alike. Both fail with the same report
and no output, or both succeed: then the run writes what the interpretation writes, with a line of
gate counts behind the first line and the line of the check at the end. -/
inductive Agree (run reference : Outcome) : Prop where
  | failed (exit : run.exitCode = 1) (exit' : reference.exitCode = 1)
      (report : run.report = reference.report) (silent : run.output = "")
      (silent' : reference.output = "")
  | succeeded (cycles : Nat) (stats : GateStats) (rest : String) (exit : run.exitCode = 0)
      (exit' : reference.exitCode = 0) (calm : run.report = "") (calm' : reference.report = "")
      (output : run.output =
        s!"cycles: {cycles}\n" ++ s!"gates: {stats.text}\n" ++ rest ++ "check: ok\n")
      (output' : reference.output = s!"cycles: {cycles}\n" ++ rest)

/-- A failure is reported, unless it ends the program abruptly. -/
def Reported (libs : Libraries) (failure : Failure) : Prop :=
  failure.outcome? libs = some (.failure "" (failure.report libs.render))

variable {libs : Libraries} {options : RunOptions} {image : Image}

def answer (libs : Libraries) : Except Failure Outcome → Option Outcome
  | .ok outcome => some outcome
  | .error failure => failure.outcome? libs

/-- A command line that makes a request answers what the command ends with. -/
theorem respond_ended {host : Host (StateM σ)} {request : Request} {arguments : List String}
    (asked : libs.parse arguments = .ok request) (world : σ) :
    ((respond libs host arguments).run world).run.1 =
      answer libs (ended (perform.command libs host request) world).1 := by
  unfold respond
  rw [asked]
  dsimp only
  unfold perform ended
  rw [StateT.run_bind]
  rcases (perform.command libs host request).run.run world with ⟨_ | outcome, after⟩ <;> rfl

/-- A program that overwrites itself. -/
def tickingText : String := ".ac 0x1234\n0x0F00\n0x0B21"

/-- One file, which holds the program, and a clock that counts its looks. -/
def tickingHost : Host (StateM Nat) where
  read path := pure (if path = "image" then .ok tickingText.toUTF8 else .error .notFound)
  clock := modifyGet fun ticks => (ticks, ticks + 1)

/-- The libraries with a generator that delivers zeros after `2 ^ 64` requests, which is long after
any run of a few cycles. -/
def Libraries.finite : Libraries where
  parse := Libraries.standard.parse
  render := Libraries.standard.render
  Generator := Nat × ChaCha
  source :=
    { bytes := fun
        | n, (0, g) => (List.replicate n 0, (0, g))
        | n, (left + 1, g) =>
          let (bytes, g) := ChaCha.source.bytes n g
          (bytes, (left, g))
      length_bytes := fun
        | _, (0, _) => List.length_replicate
        | n, (_ + 1, g) => ChaCha.source.length_bytes n g }
  ofSeed seed := (2 ^ 64, .ofSeed seed)
  deriveKey := Libraries.standard.deriveKey

end CommandLine

end CipherMachine
