import CipherMachine.CommandLine.Arguments
import CipherMachine.CommandLine.Perform
import CipherMachine.Random.Blake
import CipherMachine.Random.ChaCha
import CipherMachine.Text.Numeral

set_option autoImplicit false

/-!
The libraries of the program: its command line, the layout of its reports, its generator.
-/

namespace CipherMachine.CommandLine

inductive Setting where
  | cycles (n : Nat)
  | rowBits (n : UInt32)
  | colBits (n : UInt32)
  | backend (backend : Backend)
  | seed (passphrase : String)
  | noiseBits (n : UInt32)
  | secretBits (n : UInt32)
  | modulusBits (n : UInt32)
  | timeLimit (seconds : Nat)
  | parallel
  | trace
  | check
  deriving DecidableEq

def count? (text : String) : Option Nat :=
  Text.unsignedBelow? 64 10 text.toList

/-- A number of bits below `2 ^ 32`. Zero may have a minus sign. -/
def bits? (text : String) : Option UInt32 :=
  match text.toList with
  | '-' :: digits => ((Text.digits? 10 digits).filter (· == 0)).map .ofNat
  | digits => (Text.unsignedBelow? 32 10 digits).map .ofNat

def backend? (text : String) : Option Backend :=
  if text = "cleartext" then some .cleartext
  else if text = "integer" then some .integer
  else none

def valued (long : String) (short : Option Char) (read : String → Option Setting) :
    OptionSpec Setting :=
  ⟨long, short, .value read⟩

def bitsOption (long : String) (setting : UInt32 → Setting) : OptionSpec Setting :=
  valued long none fun text => (bits? text).map setting

def flag (long : String) (setting : Setting) : OptionSpec Setting :=
  ⟨long, none, .flag setting⟩

/-- The option that every command has. -/
def helpOptions : List (OptionSpec Setting) := [⟨"help", some 'h', .help⟩]

def taskOptions : List (OptionSpec Setting) :=
  helpOptions ++
    [valued "cycles" (some 'n') fun text => (count? text).map .cycles,
      bitsOption "row-bits" .rowBits,
      bitsOption "col-bits" .colBits]

def runOptions : List (OptionSpec Setting) :=
  taskOptions ++
    [valued "backend" (some 'b') fun text => (backend? text).map .backend,
      valued "seed" none fun text => some (.seed text),
      bitsOption "noise-bits" .noiseBits,
      bitsOption "secret-bits" .secretBits,
      bitsOption "modulus-bits" .modulusBits,
      valued "time-limit" none fun text => (count? text).map .timeLimit,
      flag "parallel" .parallel,
      flag "trace" .trace,
      flag "check" .check]

/-- The options with a setting applied. Settings of the task change nothing. -/
def RunOptions.apply (o : RunOptions) : Setting → RunOptions
  | .backend backend => { o with backend := backend }
  | .seed passphrase => { o with seed := passphrase }
  | .noiseBits n => { o with params := { o.params with noiseBits := n } }
  | .secretBits n => { o with params := { o.params with secretBits := n } }
  | .modulusBits n => { o with params := { o.params with modulusBits := n } }
  | .timeLimit seconds => { o with timeLimit := some seconds }
  | .parallel => { o with parallel := true }
  | .trace => { o with trace := true }
  | .check => { o with check := true }
  | .cycles _ | .rowBits _ | .colBits _ => o

namespace Given

def image (given : Given Setting) : Except Stop String :=
  match given.positional with
  | some image => .ok image
  | none => .error (.misuse (.missingArgument "IMAGE"))

def task (given : Given Setting) : Except Stop Task := do
  let image ← given.image
  let cycles ←
    match given.find? fun | .cycles n => some n | _ => none with
    | some cycles => pure cycles
    | none => throw (.misuse (.missingArgument "--cycles"))
  let base : Task := { image, cycles }
  let rowBits := given.find? fun | .rowBits n => some n | _ => none
  let colBits := given.find? fun | .colBits n => some n | _ => none
  return { base with
    rowBits := rowBits.getD base.rowBits, colBits := colBits.getD base.colBits }

end Given

namespace Request

/-- Reads the arguments of the command with the given name, if there is one. -/
def command? (name : String) : Option (List String → Except Stop Request) :=
  match name with
  | "run" => some fun arguments => do
    let given ← Given.readAll runOptions {} arguments
    let task ← given.task
    return .run task ((given.settings.map Prod.snd).foldl RunOptions.apply {})
  | "reference" => some fun arguments => do
    let given ← Given.readAll taskOptions {} arguments
    return .reference (← given.task)
  | "disasm" => some fun arguments => do
    let given ← Given.readAll helpOptions {} arguments
    return .disasm (← given.image)
  | _ => none

/-- Reads the names behind the command `help`: none, its own, or that of one other command. -/
def ofHelp : List String → Stop
  | [] => .help
  | name :: rest =>
    if name = "help" ∨ (command? name).isSome then
      match rest with
      | [] => .help
      | extra :: _ => .misuse (.unknownCommand extra)
    else .misuse (.unknownCommand name)

def ofArguments : List String → Except Stop Request
  | [] => .error (.misuse .missingCommand)
  | first :: rest =>
    match Argument.ofText first with
    | .long "help" none | .short 'h' _ => .error .help
    | .long "version" none | .short 'V' _ => .error .version
    | .long name _ => .error (.misuse (.unknownOption ("--" ++ name)))
    | .short letter _ => .error (.misuse (.unknownOption (String.ofList ['-', letter])))
    | .separator => .error (.misuse (.unexpectedArgument first))
    | .plain name =>
      if name = "help" then .error (ofHelp rest)
      else
        match command? name with
        | none => .error (.misuse (.unknownCommand name))
        | some read => read rest

end Request

def versionText : String := "encvm 0.1.0\n"

def helpText : String :=
  "Encrypted stored-program computer\n\n" ++
    "Usage: encvm <COMMAND>\n\n" ++
    "Commands:\n" ++
    "  run        Encrypt an image, run it and print the decrypted result\n" ++
    "  reference  Run an image on the plaintext interpreter\n" ++
    "  disasm     List an image with disassembly\n" ++
    "  help       Print this message\n\n" ++
    "Options of run and reference:\n" ++
    "  -n, --cycles <N>           Number of cycles to run\n" ++
    "      --row-bits <BITS>      Address bits selecting the memory row\n" ++
    "      --col-bits <BITS>      Address bits selecting the memory column\n\n" ++
    "Options of run:\n" ++
    "  -b, --backend <BACKEND>    cleartext or integer\n" ++
    "      --seed <PHRASE>        Passphrase the integer backend derives its keys from\n" ++
    "      --noise-bits <BITS>    Integer backend: bits of encryption noise\n" ++
    "      --secret-bits <BITS>   Integer backend: bits of the secret key\n" ++
    "      --modulus-bits <BITS>  Integer backend: bits of the public modulus\n" ++
    "      --time-limit <SECS>    Stop after the first cycle that ends past this time\n" ++
    "      --parallel             Scan memory in any order\n" ++
    "      --trace                Log decrypted registers after every cycle\n" ++
    "      --check                Compare the result with the plaintext interpreter\n"

/-- What a command line that makes no request is answered. -/
def Stop.outcome : Stop → Outcome
  | .help => .success helpText
  | .version => .success versionText
  | .misuse reason =>
    ⟨2, "", s!"error: {reason.message}\n\nFor more information, try '--help'.\n", []⟩

/-- Lays out a message with its causes. Several causes are numbered from zero. -/
def layOut (message : String) : List String → String
  | [] => message
  | [cause] => s!"{message}\n\nCaused by:\n    {cause}"
  | causes =>
    s!"{message}\n\nCaused by:" ++
      String.join (causes.zipIdx.map fun (cause, i) => s!"\n    {i}: {cause}")

/-- The libraries that the program runs with. -/
def Libraries.standard : Libraries where
  parse arguments := (Request.ofArguments arguments).mapError Stop.outcome
  render := layOut
  Generator := ChaCha
  source := ChaCha.source
  ofSeed := ChaCha.ofSeed
  deriveKey := Random.Blake.deriveKey

end CipherMachine.CommandLine
