import CipherMachine.Proofs.Circuit
import CipherMachine.Proofs.Integer
import CipherMachine.Proofs.Machine.Decryption
import CipherMachine.Random.ChaCha

set_option autoImplicit false

/-!
Circuits and programs over the integer scheme compute what they say, for all valid parameters and
all keys and random streams, however many refreshes the parameters force.
-/

namespace CipherMachine.IntegerKeys

open GateM

variable {R : Type} {k : IntegerKeys}

def gates (k : IntegerKeys) (src : Source R) : Gates IntegerCiphertext R :=
  ⟨k.scheme src, IntegerParams.workable_noiseModel k.valid⟩

theorem Sound.homomorphic (sound : k.Sound) (src : Source R) :
    (k.gates src).Homomorphic (Gates.reading k.Encrypts)
      fun r => src.below k.quotientBound r = none :=
  Gates.homomorphic (sound.preserves src)

theorem opens (k : IntegerKeys) (src : Source R) :
    (k.gates src).Opens (Gates.reading k.Encrypts) :=
  fun read => read.decrypts

/-- What a circuit leaves, run from a session: every bit that it gives is within the noise budget,
as `Encrypts` says, and decrypts to the circuit's boolean function. A run that gives none has
reached a state in which no quotient can be drawn, or the circuit misuses an operation. -/
def Computes (k : IntegerKeys) (src : Source R) (circuit : Circuit) (s : Session R) : Prop :=
  match (circuit.run (k.gates src) []).exec s with
  | (.ok bits, _) => ∃ xs, circuit.eval [] = .ok xs ∧
      List.Forall₂ (fun bit x => k.Encrypts bit.cipher bit.noise x) bits xs
  | (.error fault, t) =>
      fault = .exhausted ∧ src.below k.quotientBound t.state = none ∨
        circuit.eval [] = .error fault

/-- Under all valid parameters, keys and random streams every circuit computes its boolean
function. -/
theorem circuit_correct (params : IntegerParams) (valid : params.Valid) (src : Source R) (r : R)
    (circuit : Circuit) (s : Session R) :
    let k := (generate params valid src r).1
    Gates.ofScheme (k.scheme src) = .ok (k.gates src) ∧ k.Computes src circuit s := by
  intro k
  refine ⟨(k.gates src).ofScheme_scheme, ?_⟩
  have hom := (generate_sound params valid src r).homomorphic src
  have follows := circuit.run_follows hom .nil s
  unfold Computes
  rcases result : (circuit.run (k.gates src) []).exec s with ⟨answer, t⟩
  rw [result] at follows
  cases answer with
  | ok bits => exact follows
  | error fault => exact follows

/-- A circuit under the smallest valid parameters. -/
theorem circuit_correct_smallest :
    let k := (generate ⟨1, 5, 6⟩ ⟨by decide, by decide, by decide⟩ ChaCha.source
      (ChaCha.ofSeed (List.replicate 32 7))).1
    Gates.ofScheme (k.scheme ChaCha.source) = .ok (k.gates ChaCha.source) ∧
      k.Computes ChaCha.source [.encrypt true, .encrypt false, .or 0 1]
        ⟨ChaCha.ofSeed (List.replicate 32 9), {}⟩ :=
  circuit_correct _ _ _ _ _ _

/-- An encrypted image of any program, run for any number of cycles and decrypted with the same
keys, gives the interpreter's memory and registers. A run that gives none has reached a state in
which no quotient can be drawn. -/
theorem execute_correct (params : IntegerParams) (valid : params.Valid) (src : Source R) (r : R)
    (config : MachineConfig) (image : Image) (fits : image.checkFits config.geometry = .ok ())
    (state : R) (n : Nat) :
    let k := (generate params valid src r).1
    let dry := ∃ t, src.below k.quotientBound t = none
    ∃ it, Interpreter.load config.geometry image = .ok it ∧
      Outcome (ExhaustedLoad dry)
        (fun (sealed, next) => Outcome (ExhaustedLoad dry) (·.Shows (it.run n))
          (execute (k.scheme src) config sealed n next))
        (EncryptedImage.encrypt (k.scheme src) image config.geometry state) := by
  intro k dry
  have hom := (generate_sound params valid src r).homomorphic src
  exact execute_outcome hom (k.opens src) config fits state n

/-- A program that stores over its own code, under the smallest valid parameters. -/
theorem execute_correct_store :
    let generated := generate ⟨1, 5, 6⟩ ⟨by decide, by decide, by decide⟩ ChaCha.source
      (ChaCha.ofSeed (List.replicate 32 7))
    let k := generated.1
    let dry := ∃ t, ChaCha.source.below k.quotientBound t = none
    ∃ it, Interpreter.load .standard ⟨0, 0x1234, [0x0F00, 0x0B21]⟩ = .ok it ∧
      Outcome (ExhaustedLoad dry)
        (fun (sealed, next) => Outcome (ExhaustedLoad dry) (·.Shows (it.run 5))
          (execute (k.scheme ChaCha.source) {} sealed 5 next))
        (EncryptedImage.encrypt (k.scheme ChaCha.source)
          ⟨0, 0x1234, [0x0F00, 0x0B21]⟩ .standard generated.2) :=
  execute_correct _ _ _ _ {} _ rfl _ 5

end CipherMachine.IntegerKeys
