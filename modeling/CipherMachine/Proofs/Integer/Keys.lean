import CipherMachine.Proofs.Integer.Shadow
import CipherMachine.Proofs.IntegerCorrectness
import CipherMachine.Random.ChaCha

set_option autoImplicit false

/-!
Which parameters give keys of the integer scheme, how long the keys are, and the ranges of what is
drawn and computed with them.
-/

namespace CipherMachine

theorem bitLength_eq {n bits : Nat} (low : 2 ^ (bits - 1) ≤ n) (high : n < 2 ^ bits) :
    bitLength n = bits := by
  have positive : n ≠ 0 := Nat.pos_iff_ne_zero.mp (Nat.lt_of_lt_of_le (Nat.two_pow_pos _) low)
  cases bits with
  | zero => exact absurd (Nat.lt_one_iff.mp high) positive
  | succ top =>
      have log : n.log2 = top := (Nat.log2_eq_iff positive).mpr ⟨low, high⟩
      rw [bitLength, if_neg positive, log]

/-- A product is as long as its factors are together, or one bit shorter. -/
theorem bitLength_mul {m n a b : Nat} (m_low : 2 ^ (a - 1) ≤ m) (m_high : m < 2 ^ a)
    (n_low : 2 ^ (b - 1) ≤ n) (n_high : n < 2 ^ b) (a_pos : 0 < a) (b_pos : 0 < b) :
    bitLength (m * n) = a + b ∨ bitLength (m * n) = a + b - 1 := by
  have low : 2 ^ (a - 1 + (b - 1)) ≤ m * n := by
    rw [Nat.pow_add]
    exact Nat.mul_le_mul m_low n_low
  have high : m * n < 2 ^ (a + b) := by
    rw [Nat.pow_add]
    exact Nat.mul_lt_mul'' m_high n_high
  rcases Nat.lt_or_ge (m * n) (2 ^ (a + b - 1)) with shorter | longer
  · refine .inr (bitLength_eq ?_ shorter)
    rw [show a + b - 1 - 1 = a - 1 + (b - 1) by omega]
    exact low
  · exact .inl (bitLength_eq longer high)

/-- A drawn number with its top bit set has its full length. -/
theorem Source.bits_or_top {R : Type} (src : Source R) {bits : Nat} (positive : 0 < bits) (r : R) :
    2 ^ (bits - 1) ≤ (src.bits bits r).1 ||| 2 ^ (bits - 1) ∧
      (src.bits bits r).1 ||| 2 ^ (bits - 1) < 2 ^ bits :=
  ⟨Nat.right_le_or,
    Nat.or_lt_two_pow (src.bits_lt bits r) (Nat.pow_lt_pow_right Nat.one_lt_two (by omega))⟩

theorem IntegerParams.valid_iff (p : IntegerParams) :
    p.Valid ↔ 1 ≤ p.noiseBits.toNat ∧ 2 * (p.noiseBits.toNat + 1) + 1 ≤ p.secretBits.toNat ∧
      p.secretBits.toNat < p.modulusBits.toNat :=
  ⟨fun ⟨noise, secret, modulus⟩ => ⟨Nat.one_le_iff_ne_zero.mpr noise, secret, modulus⟩,
    fun ⟨noise, secret, modulus⟩ => ⟨Nat.one_le_iff_ne_zero.mp noise, secret, modulus⟩⟩

namespace IntegerKeys

variable {R : Type} {k : IntegerKeys}

/-- The keys are as long as their parameters ask for. -/
structure Sized (k : IntegerKeys) : Prop where
  odd : k.secret % 2 = 1
  secret_ge : 2 ^ (k.params.secretBits.toNat - 1) ≤ k.secret
  secret_lt : k.secret < 2 ^ k.params.secretBits.toNat
  quotient_length :
    bitLength k.quotientBound = k.params.modulusBits.toNat - k.params.secretBits.toNat
  modulus_length : bitLength k.modulus = k.params.modulusBits.toNat ∨
    bitLength k.modulus = k.params.modulusBits.toNat - 1

/-- What is drawn and computed with the keys stays in its range. -/
structure Ranged (k : IntegerKeys) (src : Source R) : Prop where
  /-- The budget is below the length of the secret. -/
  budget : 2 ^ k.noise.budget ≤ k.secret
  /-- The noise of an encryption is as short as it is estimated to be. -/
  fresh : ∀ bit r, 2 * k.drawnNoise src r + Bool.toNat bit < 2 ^ k.noise.fresh
  /-- An encryption draws its quotient below the bound. -/
  encrypted : ∀ {bit r c next}, k.encrypt src bit r = some (c, next) →
    ∃ quotient middle, src.below k.quotientBound r = some (quotient, middle) ∧
      quotient < k.quotientBound ∧
        c.value = k.secret * quotient + (2 * k.drawnNoise src r + Bool.toNat bit)
  /-- An encryption fails only if no quotient is found. -/
  exhausted : ∀ {bit r}, k.encrypt src bit r = none → src.below k.quotientBound r = none
  /-- All ciphertexts are below the public modulus. -/
  reduced : ∀ {calls s ciphers t}, SchemeCall.runAll (k.scheme src) calls [] s = .ok (ciphers, t) →
    ∀ c ∈ ciphers, c.value < k.modulus

theorem drawnNoise_lt (k : IntegerKeys) (src : Source R) (r : R) :
    k.drawnNoise src r < 2 ^ k.params.noiseBits.toNat := by
  unfold drawnNoise
  cases src.below k.quotientBound r with
  | none => exact Nat.two_pow_pos _
  | some answer => exact src.bits_lt _ _

theorem generate_sized (params : IntegerParams) (valid : params.Valid) (src : Source R) (r : R) :
    (generate params valid src r).1.Sized := by
  have exceeds := valid.modulus_exceeds
  have secret_pos : 0 < params.secretBits.toNat := by
    have room := valid.room
    omega
  have quotient_pos : 0 < params.modulusBits.toNat - params.secretBits.toNat := by omega
  obtain ⟨secret_ge, secret_lt⟩ := src.bits_or_top secret_pos r
  obtain ⟨quotient_ge, quotient_lt⟩ :=
    src.bits_or_top quotient_pos (src.bits params.secretBits.toNat r).2
  have odd_ge := Nat.le_trans secret_ge (Nat.left_le_or (m := 1))
  have odd_lt := Nat.or_lt_two_pow secret_lt (Nat.one_lt_two_pow secret_pos.ne')
  refine ⟨(generate_sound params valid src r).odd, odd_ge, odd_lt,
    bitLength_eq quotient_ge quotient_lt, ?_⟩
  have length := bitLength_mul odd_ge odd_lt quotient_ge quotient_lt secret_pos quotient_pos
  rw [Nat.add_sub_cancel' exceeds.le] at length
  exact length

theorem Sound.ranged (sound : k.Sound) (src : Source R) : k.Ranged src where
  budget := sound.large
  fresh bit r := k.double_add_lt (k.drawnNoise_lt src r) bit
  encrypted := by
    intro bit r c next encrypted
    obtain ⟨quotient, middle, drawn, value⟩ := encrypt_eq_some encrypted
    exact ⟨quotient, middle, drawn, src.below_lt drawn, value⟩
  exhausted := by
    intro bit r failed
    have gives := sound.gives_encrypt src bit r
    rw [failed] at gives
    exact gives
  reduced := by
    intro calls s ciphers t answer c member
    have explained := sound.runAll_explained src calls s
    rw [answer] at explained
    obtain ⟨_, _, results, _, rfl, explains⟩ := explained
    obtain ⟨result, among, rfl⟩ := List.mem_map.mp member
    obtain ⟨_, _, explains⟩ := exists_of_forall₂ explains among
    exact explains.reduced

/-- Keys come from parameters that make a scheme, and only from them. They have the lengths that
are asked for, keep everything in its range, and have a budget that gates can work with. -/
theorem ofSource_keys (params : IntegerParams) (src : Source R) (r : R) :
    ((∃ made, ofSource params src r = .ok made) ↔
      1 ≤ params.noiseBits.toNat ∧
        2 * (params.noiseBits.toNat + 1) + 1 ≤ params.secretBits.toNat ∧
          params.secretBits.toNat < params.modulusBits.toNat) ∧
    ∀ k next, ofSource params src r = .ok (k, next) →
      k.params = params ∧ k.Sized ∧ k.Ranged src ∧
        Gates.ofScheme (k.scheme src) = .ok (k.gates src) := by
  rw [← params.valid_iff]
  refine ⟨⟨?_, fun valid => ⟨_, ofSource_eq valid src r⟩⟩, ?_⟩
  · rintro ⟨made, answer⟩
    obtain ⟨valid, _⟩ := valid_of_ofSource answer
    exact valid
  · intro k next answer
    obtain ⟨valid, generated⟩ := valid_of_ofSource answer
    obtain rfl : (generate params valid src r).1 = k := congrArg Prod.fst generated
    exact ⟨rfl, generate_sized params valid src r, (generate_sound params valid src r).ranged src,
      (gates _ src).ofScheme_scheme⟩

/-- Keys under the smallest parameters that make a scheme. -/
theorem ofSource_keys_smallest :
    let src := ChaCha.source
    ∃ k next, ofSource ⟨1, 5, 6⟩ src (ChaCha.ofSeed (List.replicate 32 7)) = .ok (k, next) ∧
      k.params = ⟨1, 5, 6⟩ ∧ k.Sized ∧ k.Ranged src ∧
        Gates.ofScheme (k.scheme src) = .ok (k.gates src) := by
  intro src
  have keys := ofSource_keys ⟨1, 5, 6⟩ src (ChaCha.ofSeed (List.replicate 32 7))
  obtain ⟨⟨k, next⟩, answer⟩ := keys.1.mpr ⟨by decide, by decide, by decide⟩
  exact ⟨k, next, answer, keys.2 k next answer⟩

end IntegerKeys

end CipherMachine
