import CipherMachine.Proofs.Integer
import CipherMachine.Proofs.SchemeCalls
import CipherMachine.Random.ChaCha
import Mathlib.Data.Nat.ModEq

set_option autoImplicit false

/-!
What the integer scheme computes, whether or not a noise budget is kept.

The shadow of a ciphertext is the integer that its calls compute from bits and drawn noise when
nothing is reduced. A ciphertext is congruent to its shadow modulo the secret, so it decrypts to
the parity of the shadow's residue. That is the boolean value of the calls as long as no shadow
that is involved reaches the secret.
-/

namespace CipherMachine

/-- What a gate does to shadows: conjunctions multiply, exclusive disjunctions add, and negations
add one. -/
def Gate.shadow : Gate Nat → Nat
  | .and a b => a * b
  | .xor a b => a + b
  | .not a => a + 1

structure Shadowed where
  cipher : IntegerCiphertext
  shadow : Nat
  /-- The shadows of all ciphertexts that it was computed from, and its own. -/
  involved : List Nat

def Shadowed.of (cipher : IntegerCiphertext) (shadow : Nat) (operands : List Shadowed) :
    Shadowed :=
  ⟨cipher, shadow, shadow :: operands.flatMap Shadowed.involved⟩

namespace IntegerKeys

variable {R : Type}

/-- The noise that an encryption draws, after its quotient. -/
def drawnNoise (k : IntegerKeys) (src : Source R) (r : R) : Nat :=
  match src.below k.quotientBound r with
  | some (_, r) => (src.bits k.params.noiseBits.toNat r).1
  | none => 0

/-- An encryption with its shadow, of a bit that was computed from the operands. -/
def encryptShadowed (k : IntegerKeys) (src : Source R) (operands : List Shadowed) (bit : Bool)
    (r : R) : Option (Shadowed × R) :=
  (k.encrypt src bit r).map fun (cipher, next) =>
    (.of cipher (2 * k.drawnNoise src r + bit.toNat) operands, next)

/-- The scheme of the keys, with shadows beside its ciphertexts. A refresh encrypts what its
ciphertext decrypts to, which may not be the bit that was meant. -/
def shadowed (k : IntegerKeys) (src : Source R) : Scheme Shadowed R where
  noise := k.noise
  encrypt bit r := k.encryptShadowed src [] bit r
  decrypt c := k.decrypt c.cipher
  eval gate r :=
    (.of (evalMod k.modulus (gate.map Shadowed.cipher)) (gate.map Shadowed.shadow).shadow
      gate.inputs, r)
  refresh c r := k.encryptShadowed src [c] (k.decrypt c.cipher) r

/-- The shadow tells what the ciphertext is modulo the secret and what it decrypts to; the calls
give `x` on plain bits. -/
structure Explains (k : IntegerKeys) (c : Shadowed) (x : Bool) : Prop where
  congruent : c.cipher.value ≡ c.shadow [MOD k.secret]
  reduced : c.cipher.value < k.modulus
  decrypts : k.decrypt c.cipher = (c.shadow % k.secret % 2 == 1)
  own : c.shadow ∈ c.involved
  agrees : (∀ e ∈ c.involved, e < k.secret) → k.decrypt c.cipher = x

variable {k : IntegerKeys} {src : Source R} {c d : Shadowed} {x y : Bool}

theorem decrypt_of_modEq {c : IntegerCiphertext} {e : Nat}
    (congruent : c.value ≡ e [MOD k.secret]) :
    k.decrypt c = (e % k.secret % 2 == 1) := by
  rw [decrypt, show c.value % k.secret = e % k.secret from congruent]

theorem mod_modulus_modEq (k : IntegerKeys) (n : Nat) : n % k.modulus ≡ n [MOD k.secret] :=
  Nat.mod_mul_right_mod n k.secret k.quotientBound

theorem encrypt_eq_some {bit : Bool} {r next : R} {c : IntegerCiphertext}
    (encrypted : k.encrypt src bit r = some (c, next)) :
    ∃ quotient middle, src.below k.quotientBound r = some (quotient, middle) ∧
      c.value = k.secret * quotient + (2 * k.drawnNoise src r + bit.toNat) := by
  unfold encrypt at encrypted
  cases drawn : src.below k.quotientBound r with
  | none =>
      rw [drawn] at encrypted
      cases encrypted
  | some answer =>
      obtain ⟨quotient, middle⟩ := answer
      rw [drawn] at encrypted
      obtain ⟨rfl, _⟩ := Prod.mk.inj (Option.some.inj encrypted)
      refine ⟨quotient, middle, rfl, ?_⟩
      rw [drawnNoise, drawn]
      exact Nat.add_assoc _ _ _

namespace Explains

/-- If all shadows stay below the secret, their parities are the plain bits. -/
theorem parity (explains : k.Explains c x) (bounded : ∀ e ∈ c.involved, e < k.secret) :
    (c.shadow % 2 == 1) = x := by
  have value := explains.agrees bounded
  rw [explains.decrypts, Nat.mod_eq_of_lt (bounded _ explains.own)] at value
  exact value

/-- A ciphertext is explained by its congruence and, for plain bits, by the parity of a shadow
whose operands stay below the secret. -/
theorem of {cipher : IntegerCiphertext} {shadow : Nat} {operands : List Shadowed}
    (congruent : cipher.value ≡ shadow [MOD k.secret]) (reduced : cipher.value < k.modulus)
    (parity : (∀ c ∈ operands, ∀ e ∈ c.involved, e < k.secret) → (shadow % 2 == 1) = x) :
    k.Explains (.of cipher shadow operands) x := by
  have decrypts := decrypt_of_modEq congruent
  refine ⟨congruent, reduced, decrypts, List.mem_cons_self, fun bounded => ?_⟩
  have below : shadow < k.secret := bounded shadow List.mem_cons_self
  have value := parity fun c member e involved =>
    bounded e (List.mem_cons_of_mem _ (List.mem_flatMap.mpr ⟨c, member, involved⟩))
  rw [← value]
  exact decrypts.trans (by rw [Nat.mod_eq_of_lt below])

theorem and (sound : k.Sound) (hc : k.Explains c x) (hd : k.Explains d y) :
    k.Explains (.of ⟨c.cipher.value * d.cipher.value % k.modulus⟩ (c.shadow * d.shadow) [c, d])
      (x && y) := by
  apply of
  · exact (k.mod_modulus_modEq _).trans (hc.congruent.mul hd.congruent)
  · exact Nat.mod_lt _ sound.positive
  · intro bounded
    have left := hc.parity (bounded c (by simp))
    have right := hd.parity (bounded d (by simp))
    rw [← left, ← right, Nat.mul_mod]
    rcases Nat.mod_two_eq_zero_or_one c.shadow with even | odd
    · rw [even, Nat.zero_mul]
      rfl
    · rw [odd, Nat.one_mul, Nat.mod_mod]
      rfl

theorem xor (sound : k.Sound) (hc : k.Explains c x) (hd : k.Explains d y) :
    k.Explains (.of ⟨(c.cipher.value + d.cipher.value) % k.modulus⟩ (c.shadow + d.shadow) [c, d])
      (x ^^ y) := by
  apply of
  · exact (k.mod_modulus_modEq _).trans (hc.congruent.add hd.congruent)
  · exact Nat.mod_lt _ sound.positive
  · intro bounded
    have left := hc.parity (bounded c (by simp))
    have right := hd.parity (bounded d (by simp))
    rw [← left, ← right, Nat.add_mod]
    rcases Nat.mod_two_eq_zero_or_one c.shadow with p | p <;>
      rcases Nat.mod_two_eq_zero_or_one d.shadow with q | q <;> rw [p, q] <;> rfl

theorem not (sound : k.Sound) (hc : k.Explains c x) :
    k.Explains (.of ⟨(c.cipher.value + 1) % k.modulus⟩ (c.shadow + 1) [c]) (!x) := by
  apply of
  · exact (k.mod_modulus_modEq _).trans (hc.congruent.add_right 1)
  · exact Nat.mod_lt _ sound.positive
  · intro bounded
    have parity := hc.parity (bounded c (by simp))
    rw [← parity, Nat.add_mod]
    rcases Nat.mod_two_eq_zero_or_one c.shadow with p | p <;> rw [p] <;> rfl

end Explains

/-- An encryption is explained for operands that make its bit the value `x`. -/
theorem Sound.explains_encrypt (sound : k.Sound) (src : Source R) (operands : List Shadowed)
    (bit : Bool) (r : R)
    (meant : (∀ c ∈ operands, ∀ e ∈ c.involved, e < k.secret) → bit = x) :
    AnswersAs (∃ t, src.below k.quotientBound t = none) (fun a b => k.Explains a.1 b.1 ∧ True)
      (SchemeCall.drawn (k.encryptShadowed src operands bit r)) (.ok (x, ())) := by
  have gives := sound.gives_encrypt src bit r
  unfold encryptShadowed
  cases encrypted : k.encrypt src bit r with
  | none =>
      rw [encrypted] at gives
      exact .inl ⟨rfl, r, gives⟩
  | some answer =>
      rw [encrypted] at gives
      obtain ⟨cipher, next⟩ := answer
      obtain ⟨quotient, _, _, value⟩ := encrypt_eq_some encrypted
      refine .ok ⟨Explains.of ?_ gives.reduced fun bounded => ?_, trivial⟩
      · rw [value]
        exact Nat.mul_add_mod _ _ _
      · rw [parity_double_add]
        exact meant bounded

/-- Shadows leave the scheme's ciphertexts and its random generator as they are. -/
theorem scheme_mirrors_shadowed (k : IntegerKeys) (src : Source R) :
    (k.scheme src).Mirrors (k.shadowed src) (fun cipher c => c.cipher = cipher) Eq False where
  encrypt bit := by
    rintro s _ rfl
    exact .drawn_map (k.encrypt src bit s) fun _ => ⟨rfl, rfl⟩
  eval := by
    rintro g h related s _ rfl
    cases related with
    | and left right => subst left right; exact ⟨rfl, rfl⟩
    | xor left right => subst left right; exact ⟨rfl, rfl⟩
    | not input => subst input; exact ⟨rfl, rfl⟩
  refresh := by
    rintro _ c rfl s _ rfl
    exact .drawn_map (k.encrypt src (k.decrypt c.cipher) s) fun _ => ⟨rfl, rfl⟩

/-- One call keeps every ciphertext explained. -/
theorem Sound.shadowed_mirrors_plain (sound : k.Sound) (src : Source R) (noise : NoiseModel) :
    (k.shadowed src).Mirrors (Scheme.plain noise) k.Explains (fun _ _ => True)
      (∃ t, src.below k.quotientBound t = none) where
  encrypt bit s _ _ := sound.explains_encrypt src [] bit s fun _ => rfl
  eval := by
    intro g h related s t _
    cases related with
    | and left right => exact ⟨left.and sound right, trivial⟩
    | xor left right => exact ⟨left.xor sound right, trivial⟩
    | not input => exact ⟨input.not sound, trivial⟩
  refresh := by
    intro c x explains s _ _
    -- The refresh encrypts the bit that was meant if all before it stayed below the secret.
    exact sound.explains_encrypt src [c] _ s fun bounded =>
      explains.agrees (bounded c List.mem_cons_self)

/-- Sequences of calls give the ciphertexts that they give beside shadows, and each shadow explains
its ciphertext. -/
theorem Sound.runAll_explained (sound : k.Sound) (src : Source R) (calls : List SchemeCall)
    (s : R) :
    AnswersAs (∃ t, src.below k.quotientBound t = none)
      (fun (ciphers, t) (values, _) => ∃ results,
        SchemeCall.runAll (k.shadowed src) calls [] s = .ok (results, t) ∧
          results.map Shadowed.cipher = ciphers ∧ List.Forall₂ k.Explains results values)
      (SchemeCall.runAll (k.scheme src) calls [] s)
      (SchemeCall.runAll (Scheme.plain .noiseless) calls [] ()) := by
  have shadowed := (k.scheme_mirrors_shadowed src).runAll calls .nil (rfl : s = s)
  have explained := (sound.shadowed_mirrors_plain src .noiseless).runAll calls .nil
    (s := s) (t := ()) trivial
  refine (shadowed.trans explained).mono ?_
  rintro ⟨ciphers, t⟩ ⟨values, _⟩ ⟨⟨results, _⟩, answer, ⟨same, rfl⟩, explains, _⟩
  refine ⟨results, answer, ?_, explains⟩
  rw [← List.forall₂_eq_eq_eq, List.forall₂_map_left_iff]
  exact same.flip

/-- Sequences of calls under all valid parameters, keys and random streams. The ciphertexts are
those that the calls give beside shadows, each of which explains its ciphertext. A sequence that
gives none has reached a state in which no quotient can be drawn, or names an operand that is not
there. -/
theorem decrypts_shadow (params : IntegerParams) (valid : params.Valid) (src : Source R) (r : R)
    (calls : List SchemeCall) (s : R) :
    let k := (generate params valid src r).1
    AnswersAs (∃ t, src.below k.quotientBound t = none)
      (fun (ciphers, t) (values, _) => ∃ results,
        SchemeCall.runAll (k.shadowed src) calls [] s = .ok (results, t) ∧
          results.map Shadowed.cipher = ciphers ∧ List.Forall₂ k.Explains results values)
      (SchemeCall.runAll (k.scheme src) calls [] s)
      (SchemeCall.runAll (Scheme.plain .noiseless) calls [] ()) :=
  (generate_sound params valid src r).runAll_explained src calls s

/-- A conjunction, its refresh and the negation of that, under the smallest valid parameters. -/
theorem decrypts_shadow_smallest :
    let src := ChaCha.source
    let k := (generate ⟨1, 5, 6⟩ ⟨by decide, by decide, by decide⟩ src
      (ChaCha.ofSeed (List.replicate 32 7))).1
    let calls := [.encrypt true, .encrypt true, .eval (.and 0 1), .refresh 2, .eval (.not 3)]
    let s := ChaCha.ofSeed (List.replicate 32 9)
    AnswersAs (∃ t, src.below k.quotientBound t = none)
      (fun (ciphers, t) (values, _) => ∃ results,
        SchemeCall.runAll (k.shadowed src) calls [] s = .ok (results, t) ∧
          results.map Shadowed.cipher = ciphers ∧ List.Forall₂ k.Explains results values)
      (SchemeCall.runAll (k.scheme src) calls [] s)
      (SchemeCall.runAll (Scheme.plain .noiseless) calls [] ()) :=
  decrypts_shadow _ _ _ _ _ _

end IntegerKeys

end CipherMachine
