import CipherMachine.Proofs.Homomorphism
import CipherMachine.Proofs.Random
import CipherMachine.Scheme.Integer

set_option autoImplicit false

/-!
The integer scheme computes correctly within its noise estimates.

`IntegerKeys.Encrypts` is the invariant: the residue of a ciphertext modulo the secret is shorter
than its estimate, which is within the budget, so it is below the secret and its parity is the
encrypted bit. Reductions modulo the public modulus do not change residues.
-/

namespace CipherMachine

namespace IntegerParams

variable {p : IntegerParams}

/-- Valid parameters leave room for a conjunction of fresh ciphertexts. -/
theorem Valid.room (valid : p.Valid) : 2 * (p.noiseBits.toNat + 1) ≤ p.secretBits.toNat - 1 := by
  have fits := valid.secret_fits
  unfold requiredSecretBits at fits
  omega

theorem Valid.validate_eq (valid : p.Valid) : p.validate = .ok ⟨valid⟩ := by
  unfold validate
  rw [dif_pos valid.noise_pos, dif_pos valid.secret_fits, dif_pos valid.modulus_exceeds]

theorem workable_noiseModel (valid : p.Valid) : (p.noiseModel valid).Workable := by
  have room := valid.room
  change min (p.noiseBits.toNat + 1 + (p.noiseBits.toNat + 1)) noiseCap ≤ p.secretBits.toNat - 1
  omega

theorem budget_lt_noiseCap (valid : p.Valid) : (p.noiseModel valid).budget < noiseCap := by
  have bound := p.secretBits.toNat_lt
  have positive := valid.secret_fits
  unfold requiredSecretBits at positive
  change p.secretBits.toNat - 1 < 2 ^ 32 - 1
  omega

/-- Under valid parameters every gate fits the budget on fresh operands. -/
theorem fresh_gate_fits (valid : p.Valid) (kind : GateKind) :
    kind.noise (p.noiseModel valid).fresh (p.noiseModel valid).fresh ≤
      (p.noiseModel valid).budget := by
  have room := valid.room
  have positive := valid.noise_pos
  change kind.noise (p.noiseBits.toNat + 1) (p.noiseBits.toNat + 1) ≤ p.secretBits.toNat - 1
  cases kind <;> simp only [GateKind.noise] <;> omega

end IntegerParams

namespace IntegerKeys

variable {R : Type} {k : IntegerKeys} {src : Source R}

abbrev noise (k : IntegerKeys) : NoiseModel := k.params.noiseModel k.valid

/-- What key generation ensures: the secret is odd and its top bit is set, and the modulus is
positive. -/
structure Sound (k : IntegerKeys) : Prop where
  odd : k.secret % 2 = 1
  large : 2 ^ k.noise.budget ≤ k.secret
  positive : 0 < k.modulus

theorem ofSource_eq {params : IntegerParams} (valid : params.Valid) (src : Source R) (r : R) :
    ofSource params src r = .ok (generate params valid src r) := by
  rw [ofSource, valid.validate_eq]
  rfl

/-- Keys come only from valid parameters. -/
theorem valid_of_ofSource {params : IntegerParams} {r : R} {made : IntegerKeys × R}
    (answer : ofSource params src r = .ok made) : ∃ valid, generate params valid src r = made := by
  rw [ofSource] at answer
  cases checked : params.validate with
  | error _ =>
      rw [checked] at answer
      cases answer
  | ok valid =>
      rw [checked] at answer
      exact ⟨valid.down, Except.ok.inj answer⟩

theorem generate_sound (params : IntegerParams) (valid : params.Valid) (src : Source R) (r : R) :
    (generate params valid src r).1.Sound := by
  have top : ∀ n t : Nat, 2 ^ t ≤ n ||| 2 ^ t := fun n t => Nat.right_le_or
  refine ⟨?_, Nat.le_trans (top _ _) Nat.left_le_or, Nat.mul_pos ?_ ?_⟩
  · rw [Nat.mod_two_eq_one_iff_testBit_zero]
    simp only [generate, Nat.testBit_or, Nat.testBit_one_zero, Bool.or_true]
  · exact Nat.lt_of_lt_of_le Nat.one_pos Nat.right_le_or
  · exact Nat.lt_of_lt_of_le (Nat.two_pow_pos _) (top _ _)

/-- The ciphertext encrypts the bit, and the estimate is right. -/
structure Encrypts (k : IntegerKeys) (c : IntegerCiphertext) (estimate : Nat) (x : Bool) :
    Prop where
  fresh_le : k.noise.fresh ≤ estimate
  le_budget : estimate ≤ k.noise.budget
  reduced : c.value < k.modulus
  residue : c.value % k.secret < 2 ^ estimate
  decrypts : k.decrypt c = x

/-- A number encrypts the parity of what it is congruent to modulo the secret, if that is
short. -/
theorem Sound.encrypts (sound : k.Sound) {c : IntegerCiphertext} {residue estimate : Nat}
    (reduced : c.value < k.modulus) (congruent : c.value % k.secret = residue % k.secret)
    (short : residue < 2 ^ estimate) (fresh : k.noise.fresh ≤ estimate)
    (fits : estimate ≤ k.noise.budget) : k.Encrypts c estimate (residue % 2 == 1) := by
  have below : residue < k.secret :=
    Nat.lt_of_lt_of_le short (Nat.le_trans (Nat.pow_le_pow_right Nat.two_pos fits) sound.large)
  rw [Nat.mod_eq_of_lt below] at congruent
  refine ⟨fresh, fits, reduced, ?_, ?_⟩
  · rw [congruent]
    exact short
  · rw [decrypt, congruent]

/-- The reduction modulo the public modulus changes no residue. -/
theorem Sound.encrypts_mod (sound : k.Sound) {value residue estimate : Nat}
    (congruent : value % k.secret = residue % k.secret) (short : residue < 2 ^ estimate)
    (fresh : k.noise.fresh ≤ estimate) (fits : estimate ≤ k.noise.budget) :
    k.Encrypts ⟨value % k.modulus⟩ estimate (residue % 2 == 1) := by
  apply sound.encrypts (Nat.mod_lt value sound.positive) ?_ short fresh fits
  rw [← congruent]
  exact Nat.mod_mul_right_mod value k.secret k.quotientBound

theorem Encrypts.parity {c : IntegerCiphertext} {estimate : Nat} {x : Bool}
    (encrypts : k.Encrypts c estimate x) : c.value % k.secret % 2 = x.toNat := by
  have decrypts := encrypts.decrypts
  rw [decrypt] at decrypts
  cases x with
  | false =>
      rw [beq_eq_false_iff_ne] at decrypts
      change _ = 0
      omega
  | true => exact beq_iff_eq.mp decrypts

theorem parity_double_add (n : Nat) (bit : Bool) : ((2 * n + bit.toNat) % 2 == 1) = bit := by
  rw [Nat.mul_add_mod]
  cases bit <;> rfl

/-- A bit with doubled noise is as short as a fresh ciphertext is estimated to be. -/
theorem double_add_lt (k : IntegerKeys) {noise : Nat} (short : noise < 2 ^ k.params.noiseBits.toNat)
    (bit : Bool) : 2 * noise + bit.toNat < 2 ^ k.noise.fresh := by
  have low : bit.toNat ≤ 1 := Bool.toNat_le bit
  change _ < 2 ^ (k.params.noiseBits.toNat + 1)
  rw [Nat.pow_succ]
  omega

/-- A fresh ciphertext is what the estimates say it is. -/
theorem Sound.gives_encrypt (sound : k.Sound) (src : Source R) (x : Bool) (r : R) :
    GateM.Gives (src.below k.quotientBound r = none) (k.Encrypts · k.noise.fresh x)
      (k.encrypt src x r) := by
  unfold encrypt
  cases drawn : src.below k.quotientBound r with
  | none => rfl
  | some result =>
      obtain ⟨quotient, next⟩ := result
      have below := src.below_lt drawn
      have noise := src.bits_lt k.params.noiseBits.toNat next
      have room := k.valid.room
      have fits : k.noise.fresh ≤ k.noise.budget := by
        change k.params.noiseBits.toNat + 1 ≤ k.params.secretBits.toNat - 1
        omega
      have short := k.double_add_lt noise x
      have secret : 2 ^ k.noise.fresh ≤ k.secret :=
        Nat.le_trans (Nat.pow_le_pow_right Nat.two_pos fits) sound.large
      have encrypts := sound.encrypts (c := ⟨k.secret * quotient +
        2 * (src.bits k.params.noiseBits.toNat next).1 + x.toNat⟩) ?_ ?_ short (Nat.le_refl _) fits
      · rw [parity_double_add] at encrypts
        exact encrypts
      · have step : k.secret * (quotient + 1) ≤ k.modulus := Nat.mul_le_mul_left k.secret below
        rw [Nat.mul_add, Nat.mul_one] at step
        dsimp only
        omega
      · rw [Nat.add_assoc, Nat.mul_add_mod]

/-- An estimate within the budget has not been cut off. -/
theorem estimate_of_fits (k : IntegerKeys) {estimate : Nat}
    (fits : min estimate noiseCap ≤ k.noise.budget) : min estimate noiseCap = estimate := by
  have cap := IntegerParams.budget_lt_noiseCap k.valid
  change k.noise.budget < noiseCap at cap
  omega

namespace Encrypts

variable {c d : IntegerCiphertext} {n m : Nat} {x y : Bool}

/-- Once refreshes have settled, a gate fits the budget. -/
theorem fits (hc : k.Encrypts c n x) (hd : k.Encrypts d m y) {kind : GateKind}
    (settled : k.noise.Settled kind n m) : kind.noise n m ≤ k.noise.budget :=
  settled.fits ⟨hc.fresh_le, hd.fresh_le⟩ (IntegerParams.fresh_gate_fits k.valid kind)

theorem fits_not (hc : k.Encrypts c n x) (settled : k.noise.Settled .not n 0) :
    min (n + 1) noiseCap ≤ k.noise.budget := by
  rcases settled with fits | ⟨low, _⟩
  · exact fits
  · rw [Nat.le_antisymm low hc.fresh_le]
    exact IntegerParams.fresh_gate_fits k.valid .not

theorem not (sound : k.Sound) (hc : k.Encrypts c n x) (settled : k.noise.Settled .not n 0) :
    k.Encrypts ⟨(c.value + 1) % k.modulus⟩ (min (n + 1) noiseCap) !x := by
  have fits := hc.fits_not settled
  have uncut := k.estimate_of_fits fits
  rw [uncut] at fits ⊢
  have parity : ((c.value % k.secret + 1) % 2 == 1) = !x := by
    rw [Nat.add_mod, hc.parity]
    cases x <;> rfl
  rw [← parity]
  apply sound.encrypts_mod
  · rw [Nat.mod_add_mod]
  · have one : 1 ≤ 2 ^ n := Nat.two_pow_pos n
    have short := hc.residue
    rw [Nat.pow_succ]
    omega
  · exact Nat.le_succ_of_le hc.fresh_le
  · exact fits

theorem and (sound : k.Sound) (hc : k.Encrypts c n x) (hd : k.Encrypts d m y)
    (settled : k.noise.Settled .and n m) :
    k.Encrypts ⟨c.value * d.value % k.modulus⟩ (min (n + m) noiseCap) (x && y) := by
  have fits : min (n + m) noiseCap ≤ k.noise.budget := hc.fits hd settled
  have uncut := k.estimate_of_fits fits
  rw [uncut] at fits ⊢
  have parity : (c.value % k.secret * (d.value % k.secret) % 2 == 1) = (x && y) := by
    rw [Nat.mul_mod, hc.parity, hd.parity]
    cases x <;> cases y <;> rfl
  rw [← parity]
  apply sound.encrypts_mod
  · rw [← Nat.mul_mod]
  · rw [Nat.pow_add]
    exact Nat.mul_lt_mul'' hc.residue hd.residue
  · exact Nat.le_add_right_of_le hc.fresh_le
  · exact fits

theorem xor (sound : k.Sound) (hc : k.Encrypts c n x) (hd : k.Encrypts d m y)
    (settled : k.noise.Settled .xor n m) :
    k.Encrypts ⟨(c.value + d.value) % k.modulus⟩ (min (max n m + 1) noiseCap) (x ^^ y) := by
  have fits : min (max n m + 1) noiseCap ≤ k.noise.budget := hc.fits hd settled
  have uncut := k.estimate_of_fits fits
  rw [uncut] at fits ⊢
  have parity : ((c.value % k.secret + d.value % k.secret) % 2 == 1) = (x ^^ y) := by
    rw [Nat.add_mod, hc.parity, hd.parity]
    cases x <;> cases y <;> rfl
  rw [← parity]
  apply sound.encrypts_mod
  · rw [← Nat.add_mod]
  · have left := Nat.lt_of_lt_of_le hc.residue
      (Nat.pow_le_pow_right Nat.two_pos (Nat.le_max_left n m))
    have right := Nat.lt_of_lt_of_le hd.residue
      (Nat.pow_le_pow_right Nat.two_pos (Nat.le_max_right n m))
    rw [Nat.pow_succ]
    omega
  · exact Nat.le_succ_of_le (Nat.le_trans hc.fresh_le (Nat.le_max_left n m))
  · exact fits

end Encrypts

/-- The scheme preserves the invariant, unless a quotient cannot be drawn. -/
theorem Sound.preserves (sound : k.Sound) (src : Source R) :
    (k.scheme src).Preserves k.Encrypts fun r => src.below k.quotientBound r = none where
  encrypt := sound.gives_encrypt src
  refresh := by
    intro c n x valid s
    change GateM.Gives _ _ (k.encrypt src (k.decrypt c) s)
    rw [valid.decrypts]
    exact sound.gives_encrypt src x s
  not hc settled _ := hc.not sound settled
  and hc hd settled _ := hc.and sound hd settled
  xor hc hd settled _ := hc.xor sound hd settled

end IntegerKeys

end CipherMachine
