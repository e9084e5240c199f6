import CipherMachine.Scheme.Integer

set_option autoImplicit false

/-!
Requests: what a command line asks for.

`run` runs an image encrypted, `reference` runs it in plaintext, `disasm` lists it. Every command
takes the image's file; the first two also take the number of cycles and the shape of the memory.
-/

namespace CipherMachine.CommandLine

inductive Backend where
  /-- On plain bits. -/
  | cleartext
  /-- On integers that encrypt the bits. -/
  | integer
  deriving DecidableEq

/-- What `run` and `reference` have in common. -/
structure Task where
  /-- The name of the image's file. -/
  image : String
  cycles : Nat
  rowBits : UInt32 := 4
  colBits : UInt32 := 4
  deriving DecidableEq

/-- What `run` asks for besides. -/
structure RunOptions where
  backend : Backend := .cleartext
  /-- The passphrase that keys are derived from. -/
  seed : String := "encvm"
  params : IntegerParams := {}
  /-- Seconds after which no further cycle begins. -/
  timeLimit : Option Nat := none
  parallel : Bool := false
  trace : Bool := false
  /-- Whether to compare the result with the plaintext interpreter. -/
  check : Bool := false
  deriving DecidableEq

inductive Request where
  | run (task : Task) (options : RunOptions)
  | reference (task : Task)
  | disasm (image : String)
  deriving DecidableEq

end CipherMachine.CommandLine
