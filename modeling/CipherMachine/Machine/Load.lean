import CipherMachine.Machine

set_option autoImplicit false

/-!
Loading: encrypting an image and building a machine from it.

Every check is made before the first ciphertext is touched. An image encrypted by
`EncryptedImage.encrypt` always passes the checks of `Machine.load` for the same shape.
-/

namespace CipherMachine

/-- An initial state, encrypted. Memory words that it does not hold are zero. -/
structure EncryptedImage (C : Type) where
  memory : List (Word C)
  pc : Word C
  ac : Word C

inductive LoadError where
  /-- The plaintext image does not fit the memory shape. -/
  | image (error : FitError)
  | imageTooLarge (words capacity : Nat)
  | wordWidth (address width expected : Nat)
  | pcWidth (width expected : Nat)
  | acWidth (width expected : Nat)
  /-- The scheme cannot evaluate circuits, or failed to encrypt. -/
  | fault (cause : Fault)
  deriving DecidableEq

def LoadError.message? : LoadError → Option String
  | .image error => some error.message
  | .imageTooLarge words capacity =>
    some s!"image has {words} words but memory holds {capacity}"
  | .wordWidth address width expected =>
    some s!"memory word {address} is {width} bits wide, expected {expected}"
  | .pcWidth width expected => some s!"pc is {width} bits wide, expected {expected}"
  | .acWidth width expected => some s!"accumulator is {width} bits wide, expected {expected}"
  | .fault cause => cause.message?

namespace EncryptedImage

variable {C S : Type}

/-- Encrypts an image that fits: the words, the program counter, the accumulator. -/
def sealed (G : Gates C S) (image : Image) (g : Geometry) : GateM S (EncryptedImage C) := do
  let memory ← image.words.mapM fun word => G.encryptWord word.toNat 16
  let pc ← G.encryptWord image.pc.toNat g.addressBits
  let ac ← G.encryptWord image.ac.toNat 16
  return ⟨memory, pc, ac⟩

/-- Encrypts an image for a memory shape. Returns the scheme's state along with it. -/
def encrypt (scheme : Scheme C S) (image : Image) (g : Geometry) (state : S) :
    Except LoadError (EncryptedImage C × S) := do
  (image.checkFits g).mapError LoadError.image
  let G ← (Gates.ofScheme scheme).mapError LoadError.fault
  let (sealed, session) := (sealed G image g).exec ⟨state, {}⟩
  let sealed ← sealed.mapError LoadError.fault
  return (sealed, session.state)

/-- Checks the sizes of an image: the number of words, the width of each word from address zero
on, and the widths of the program counter and the accumulator. -/
def check (image : EncryptedImage C) (g : Geometry) : Except LoadError Unit :=
  if g.capacity < image.memory.length then
    .error (.imageTooLarge image.memory.length g.capacity)
  else
    match image.memory.zipIdx.find? fun (word, _) => word.width != 16 with
    | some (word, address) => .error (.wordWidth address word.width 16)
    | none =>
      if image.pc.width ≠ g.addressBits then .error (.pcWidth image.pc.width g.addressBits)
      else if image.ac.width ≠ 16 then .error (.acWidth image.ac.width 16)
      else .ok ()

end EncryptedImage

namespace Machine

variable {C S : Type}

/-- The state of a machine before its first cycle: missing memory words, the flags and the
staging register are encryptions of zero, in this order, and last comes the constant one. -/
def initial (G : Gates C S) (g : Geometry) (image : EncryptedImage C) :
    GateM S (Memory C × EncryptedRegisters C × Bit C) := do
  let padding ← (List.replicate (g.capacity - image.memory.length) 0).mapM fun word =>
    G.encryptWord word 16
  let carry ← G.encrypt false
  let zero ← G.encrypt false
  let minus ← G.encrypt false
  let staging ← G.encryptWord 0 16
  let one ← G.encrypt true
  return (⟨g, image.memory ++ padding⟩, ⟨image.pc, image.ac, carry, zero, minus, staging⟩, one)

/-- Builds a machine. Nothing is encrypted if the image does not fit the configuration. -/
def load (scheme : Scheme C S) (config : MachineConfig) (image : EncryptedImage C) (state : S) :
    Except LoadError (Machine C S) := do
  image.check config.geometry
  let G ← (Gates.ofScheme scheme).mapError LoadError.fault
  let (result, session) := (initial G config.geometry image).exec ⟨state, {}⟩
  let (memory, registers, one) ← result.mapError LoadError.fault
  return ⟨G, config, memory, registers, one, session, 0⟩

/-- Encrypts an image for the configured shape and builds a machine from it. -/
def ofImage (scheme : Scheme C S) (config : MachineConfig) (image : Image) (state : S) :
    Except LoadError (Machine C S) := do
  let (sealed, state) ← EncryptedImage.encrypt scheme image config.geometry state
  load scheme config sealed state

end Machine

end CipherMachine
