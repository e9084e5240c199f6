import CipherMachine.Random.Source
import CipherMachine.Scheme

set_option autoImplicit false

/-!
Somewhat homomorphic encryption over the integers.

The secret is an odd number `p`. A bit `m` is encrypted as `p * q + 2 * r + m` with a random
quotient `q` and a small random `r`, and decrypted as the parity of the remainder modulo `p`.
Sums and products of ciphertexts encrypt exclusive disjunctions and conjunctions while their
noise `2 * r + m` stays below `p`. Ciphertexts are kept reduced modulo a public multiple of `p`.

A refresh decrypts and encrypts again, so the evaluator holds the secret. The scheme demonstrates
the machine; its parameters resist no attack.
-/

namespace CipherMachine

/-- Bit lengths: of the encryption randomness, of the secret, and of the public modulus. -/
structure IntegerParams where
  noiseBits : UInt32 := 16
  secretBits : UInt32 := 512
  modulusBits : UInt32 := 2048
  deriving DecidableEq, Repr

inductive IntegerParamsError where
  /-- Ciphertexts would have no randomness. -/
  | noNoise
  /-- The secret could not absorb a conjunction of fresh ciphertexts. -/
  | secretTooSmall (secretBits required : Nat)
  /-- The modulus would be no proper multiple of the secret. -/
  | modulusTooSmall (modulusBits secretBits : Nat)
  deriving DecidableEq

def IntegerParamsError.message : IntegerParamsError → String
  | .noNoise => "noise_bits must be at least 1"
  | .secretTooSmall secretBits required =>
    s!"secret_bits is {secretBits} but at least {required} are needed"
  | .modulusTooSmall modulusBits secretBits =>
    s!"modulus_bits ({modulusBits}) must exceed secret_bits ({secretBits})"

namespace IntegerParams

/-- The shortest secret for the given noise: a fresh ciphertext has one bit of noise more than
its randomness, a conjunction has twice that, and the secret needs one bit on top. -/
def requiredSecretBits (p : IntegerParams) : Nat := 2 * (p.noiseBits.toNat + 1) + 1

structure Valid (p : IntegerParams) : Prop where
  noise_pos : p.noiseBits.toNat ≠ 0
  secret_fits : p.requiredSecretBits ≤ p.secretBits.toNat
  modulus_exceeds : p.secretBits.toNat < p.modulusBits.toNat

/-- Checks the noise, then the secret, then the modulus. -/
def validate (p : IntegerParams) : Except IntegerParamsError (PLift p.Valid) :=
  if noise_pos : p.noiseBits.toNat ≠ 0 then
    if secret_fits : p.requiredSecretBits ≤ p.secretBits.toNat then
      if modulus_exceeds : p.secretBits.toNat < p.modulusBits.toNat then
        .ok ⟨⟨noise_pos, secret_fits, modulus_exceeds⟩⟩
      else
        .error (.modulusTooSmall p.modulusBits.toNat p.secretBits.toNat)
    else
      .error (.secretTooSmall p.secretBits.toNat p.requiredSecretBits)
  else
    .error .noNoise

/-- The estimates of the scheme: `2 * r + m` has one bit more than `r`, and what is shorter than
the secret is below it. -/
def noiseModel (p : IntegerParams) (valid : p.Valid) : NoiseModel where
  fresh := p.noiseBits.toNat + 1
  budget := p.secretBits.toNat - 1
  fresh_le := by
    have fits := valid.secret_fits
    have bound := p.secretBits.toNat_lt
    unfold requiredSecretBits at fits
    unfold noiseCap
    omega
  budget_le := by
    have bound := p.secretBits.toNat_lt
    unfold noiseCap
    omega

def describe (p : IntegerParams) : String :=
  "IntegerParams \x7b " ++ s!"noise_bits: {p.noiseBits.toNat}, " ++
    s!"secret_bits: {p.secretBits.toNat}, modulus_bits: {p.modulusBits.toNat}" ++ " \x7d"

end IntegerParams

structure IntegerCiphertext where
  value : Nat
  deriving DecidableEq

/-- The length of a ciphertext, which is all that is shown of it. -/
def IntegerCiphertext.describe (c : IntegerCiphertext) : String :=
  s!"IntegerCiphertext({bitLength c.value} bits)"

/-- Keys: the secret and the bound below which quotients are drawn. -/
structure IntegerKeys where
  params : IntegerParams
  valid : params.Valid
  secret : Nat
  quotientBound : Nat

namespace IntegerKeys

variable {R : Type}

/-- Draws keys: a secret of exactly `secretBits` bits, made odd, and then a bound that has
exactly the bits by which the modulus is longer than the secret. -/
def generate (params : IntegerParams) (valid : params.Valid) (src : Source R) (r : R) :
    IntegerKeys × R :=
  let secretBits := params.secretBits.toNat
  let quotientBits := params.modulusBits.toNat - secretBits
  let (secret, r) := src.bits secretBits r
  let (quotient, r) := src.bits quotientBits r
  (⟨params, valid, secret ||| Nat.pow 2 (secretBits - 1) ||| 1,
    quotient ||| Nat.pow 2 (quotientBits - 1)⟩, r)

def modulus (k : IntegerKeys) : Nat := k.secret * k.quotientBound

/-- Encrypts a bit: draws the quotient, then the noise. -/
def encrypt (k : IntegerKeys) (src : Source R) (bit : Bool) (r : R) :
    Option (IntegerCiphertext × R) :=
  match src.below k.quotientBound r with
  | none => none
  | some (quotient, r) =>
    let (noise, r) := src.bits k.params.noiseBits.toNat r
    some (⟨k.secret * quotient + 2 * noise + bit.toNat⟩, r)

def decrypt (k : IntegerKeys) (c : IntegerCiphertext) : Bool :=
  (c.value % k.secret) % 2 == 1

/-- Evaluates a gate, with the modulus given. -/
def evalMod (modulus : Nat) : Gate IntegerCiphertext → IntegerCiphertext
  | .and left right => ⟨left.value * right.value % modulus⟩
  | .xor left right => ⟨(left.value + right.value) % modulus⟩
  | .not input => ⟨(input.value + 1) % modulus⟩

def scheme (k : IntegerKeys) (src : Source R) : Scheme IntegerCiphertext R :=
  let modulus := k.modulus
  { noise := k.params.noiseModel k.valid
    encrypt := k.encrypt src
    decrypt := k.decrypt
    eval := fun gate r => (evalMod modulus gate, r)
    refresh := fun c r => k.encrypt src (k.decrypt c) r }

def describe (k : IntegerKeys) : String :=
  "IntegerContext \x7b params: " ++ k.params.describe ++ ", .. \x7d"

end IntegerKeys

/-- The use that passphrases are derived for. -/
def seedContext : String := "encvm 2026-10-19 integer context seed"

/-- The generator seed of a passphrase, by the given way to derive keys for a use. -/
def seedOfPassphrase (deriveKey : List UInt8 → List UInt8 → List UInt8) (passphrase : String) :
    List UInt8 :=
  deriveKey seedContext.toUTF8.toList passphrase.toUTF8.toList

/-- Keys from a random source, if the parameters make a scheme, and the source's next state, from
which encryptions draw. -/
def IntegerKeys.ofSource {R : Type} (params : IntegerParams) (src : Source R) (r : R) :
    Except IntegerParamsError (IntegerKeys × R) := do
  let ⟨valid⟩ ← params.validate
  return IntegerKeys.generate params valid src r

end CipherMachine
