set_option autoImplicit false

/-!
Command line arguments: options and flags with their values, and one positional argument.

An option is written `--name value`, `--name=value`, `-n value`, `-nvalue` or `-n=value`, a flag
`--name`. A lone `--` makes everything after it positional. Arguments are read from left to right
and the first misuse or request for help decides.
-/

namespace CipherMachine.CommandLine

inductive Argument where
  /-- The two dashes that end the options. -/
  | separator
  /-- `--name` or `--name=value`. -/
  | long (name : String) (value : Option String)
  /-- `-n` with what is attached to it. -/
  | short (letter : Char) (value : Option String)
  /-- Anything else, a lone dash among it. -/
  | plain (text : String)
  deriving DecidableEq

/-- What stands behind the first equals sign, if there is one. -/
def afterEquals (text : List Char) : Option String :=
  match text.dropWhile (· != '=') with
  | _ :: value => some (String.ofList value)
  | [] => none

/-- The value attached to a letter. An equals sign in front of it does not count. -/
def attached : List Char → Option String
  | [] => none
  | '=' :: value => some (String.ofList value)
  | value => some (String.ofList value)

def Argument.ofText (text : String) : Argument :=
  match text.toList with
  | ['-', '-'] => .separator
  | '-' :: '-' :: rest => .long (String.ofList (rest.takeWhile (· != '='))) (afterEquals rest)
  | '-' :: letter :: rest => .short letter (attached rest)
  | _ => .plain text

/-- How a command line is misused. -/
inductive Misuse where
  | missingCommand
  | unknownCommand (name : String)
  | unknownOption (name : String)
  | missingValue (option : String)
  /-- A flag with a value. -/
  | unexpectedValue (option : String)
  | invalidValue (option value : String)
  | repeated (option : String)
  | unexpectedArgument (text : String)
  | emptyArgument
  | missingArgument (name : String)
  deriving DecidableEq

def Misuse.message : Misuse → String
  | .missingCommand => "a command is required"
  | .unknownCommand name => s!"unrecognized command '{name}'"
  | .unknownOption name => s!"unexpected option '{name}'"
  | .missingValue option => s!"'{option}' needs a value"
  | .unexpectedValue option => s!"'{option}' takes no value"
  | .invalidValue option value => s!"invalid value '{value}' for '{option}'"
  | .repeated option => s!"'{option}' cannot be used more than once"
  | .unexpectedArgument text => s!"unexpected argument '{text}'"
  | .emptyArgument => "an argument must not be empty"
  | .missingArgument name => s!"{name} is required"

/-- Why arguments are not read to their end: they ask for something else, or are misused. -/
inductive Stop where
  | help
  | version
  | misuse (reason : Misuse)
  deriving DecidableEq

/-- What an option does, for settings of type `α`. -/
inductive OptionKind (α : Type) where
  /-- Asks for help. -/
  | help
  | flag (setting : α)
  /-- Takes a value; `none` for a value that is refused. -/
  | value (read : String → Option α)

structure OptionSpec (α : Type) where
  long : String
  short : Option Char
  kind : OptionKind α

/-- What has been read: the settings with the names of their options, the latest first, and the
positional argument. -/
structure Given (α : Type) where
  settings : List (String × α) := []
  positional : Option String := none

namespace Given

variable {α : Type}

/-- Records a setting. No option is given twice. -/
def add (given : Given α) (option : String) (setting : α) : Except Stop (Given α) :=
  if given.settings.any fun (name, _) => name == option then
    .error (.misuse (.repeated option))
  else
    .ok { given with settings := (option, setting) :: given.settings }

def addValue (given : Given α) (option : String) (read : String → Option α) (value : String) :
    Except Stop (Given α) :=
  match read value with
  | some setting => given.add option setting
  | none => .error (.misuse (.invalidValue option value))

/-- Records the positional argument, which is given once and is not empty. -/
def addPositional (given : Given α) (text : String) : Except Stop (Given α) :=
  match given.positional with
  | some _ => .error (.misuse (.unexpectedArgument text))
  | none =>
    if text.isEmpty then .error (.misuse .emptyArgument)
    else .ok { given with positional := some text }

/-- The option that an argument names, with the value attached to it. -/
def lookUp (options : List (OptionSpec α)) : Argument → Option (OptionSpec α × Option String)
  | .long name value => (options.find? (·.long == name)).map (·, value)
  | .short letter value => (options.find? (·.short == some letter)).map (·, value)
  | .separator | .plain _ => none

/-- Reads arguments behind those that have been read. An option's separate value does not look
like an option. -/
def readAll (options : List (OptionSpec α)) (given : Given α) : List String → Except Stop (Given α)
  | [] => .ok given
  | text :: rest =>
    match Argument.ofText text with
    | .separator => rest.foldlM addPositional given
    | .plain text => do (← given.addPositional text).readAll options rest
    | argument =>
      match lookUp options argument with
      | none => .error (.misuse (.unknownOption text))
      | some (option, value) =>
        match option.kind, value with
        | .help, none => .error .help
        | .help, some _ =>
          if argument matches .short .. then .error .help
          else .error (.misuse (.unexpectedValue option.long))
        | .flag setting, none => do (← given.add option.long setting).readAll options rest
        | .flag _, some _ => .error (.misuse (.unexpectedValue option.long))
        | .value read, some value => do
          (← given.addValue option.long read value).readAll options rest
        | .value read, none =>
          match rest with
          | [] => .error (.misuse (.missingValue option.long))
          | next :: rest =>
            match Argument.ofText next with
            | .plain value => do (← given.addValue option.long read value).readAll options rest
            | _ => .error (.misuse (.missingValue option.long))

def find? {β : Type} (given : Given α) (select : α → Option β) : Option β :=
  given.settings.findSome? fun (_, setting) => select setting

end Given

end CipherMachine.CommandLine
