import CipherMachine.Proofs.Circuit

set_option autoImplicit false

/-!
Estimates stay within the budget.

Gates are accepted if a conjunction of two fresh ciphertexts fits the budget. By the usual law an
exclusive disjunction and a negation of fresh ciphertexts are no noisier than that, with one
exception: under a model without any noise they have one bit of it, which a budget of zero does not
admit.
-/

namespace CipherMachine

open GateM

namespace NoiseModel

variable {m : NoiseModel}

/-- The estimates that bits have: from that of a fresh ciphertext up to the budget, and up to one
bit if the budget is zero. -/
structure Admits (m : NoiseModel) (estimate : Nat) : Prop where
  fresh_le : m.fresh ≤ estimate
  le_budget : estimate ≤ max m.budget 1

theorem Workable.fresh_and_le (workable : m.Workable) (standard : m.Standard) :
    min (m.fresh + m.fresh) noiseCap ≤ m.budget := by
  have accepted : m.growth .and m.fresh m.fresh ≤ m.budget := workable
  rw [standard] at accepted
  exact accepted

/-- What the acceptance of a conjunction of fresh ciphertexts says of the other gates. -/
theorem Workable.fresh_gate_le (workable : m.Workable) (standard : m.Standard) (kind : GateKind) :
    m.growth kind m.fresh m.fresh ≤ max m.budget 1 := by
  have cap := m.fresh_le
  have accepted := workable.fresh_and_le standard
  rw [standard]
  have positive : 1 ≤ noiseCap := by decide
  cases kind with
  | and =>
      change min (m.fresh + m.fresh) noiseCap ≤ _
      omega
  | xor =>
      change min (max m.fresh m.fresh + 1) noiseCap ≤ _
      omega
  | not =>
      change min (m.fresh + 1) noiseCap ≤ _
      omega

/-- A refresh schedule that has settled leaves a gate that fits: either it fits the budget, or
both operands are fresh. -/
theorem Settled.gate_le (workable : m.Workable) (standard : m.Standard) {kind : GateKind}
    {left right : Nat} (settled : m.Settled kind left right) (hl : m.Admits left)
    (hr : m.Admits right) : m.growth kind left right ≤ max m.budget 1 := by
  rcases settled with fits | ⟨low, low'⟩
  · exact Nat.le_trans fits (Nat.le_max_left _ _)
  · rw [Nat.le_antisymm low hl.fresh_le, Nat.le_antisymm low' hr.fresh_le]
    exact workable.fresh_gate_le standard kind

theorem Settled.not_le (workable : m.Workable) (standard : m.Standard) {input : Nat}
    (settled : m.Settled .not input 0) (hi : m.Admits input) :
    m.growth .not input 0 ≤ max m.budget 1 := by
  rcases settled with fits | ⟨low, _⟩
  · exact Nat.le_trans fits (Nat.le_max_left _ _)
  · have fresh := workable.fresh_gate_le standard .not
    rw [Nat.le_antisymm low hi.fresh_le]
    rw [standard] at fresh ⊢
    exact fresh

/-- No gate takes an estimate below that of a fresh ciphertext. -/
theorem fresh_le_growth (standard : m.Standard) (kind : GateKind) {left right : Nat}
    (above : m.fresh ≤ left) : m.fresh ≤ m.growth kind left right := by
  have cap := m.fresh_le
  rw [standard]
  cases kind with
  | and =>
      change _ ≤ min (left + right) noiseCap
      omega
  | xor =>
      change _ ≤ min (max left right + 1) noiseCap
      omega
  | not =>
      change _ ≤ min (left + 1) noiseCap
      omega

theorem Workable.admits_fresh (workable : m.Workable) (standard : m.Standard) :
    m.Admits m.fresh := by
  have accepted := workable.fresh_and_le standard
  have cap := m.fresh_le
  refine ⟨Nat.le_refl _, ?_⟩
  omega

end NoiseModel

namespace Gates

variable {C S : Type} {G : Gates C S}

/-- The reading of bits that looks at their estimates alone. -/
abbrev admitted (G : Gates C S) : Bit C → Bool → Prop :=
  reading fun _ estimate _ => G.noise.Admits estimate

theorem preserves_admitted (standard : G.noise.Standard) :
    G.scheme.Preserves (fun _ estimate _ => G.noise.Admits estimate) G.scheme.Dry := by
  have workable : G.noise.Workable := G.workable
  apply G.scheme.preserves_estimates (workable.admits_fresh standard)
  · intro n admits settled
    exact ⟨NoiseModel.fresh_le_growth standard .not admits.fresh_le,
      settled.not_le workable standard admits⟩
  · intro kind n k left right settled
    exact ⟨NoiseModel.fresh_le_growth standard kind left.fresh_le,
      settled.gate_le workable standard left right⟩

/-- Where refreshing ends, the gate on the operands that it leaves fits. -/
theorem fit_predicts (standard : G.noise.Standard) (kind : GateKind) {a b : Bit C}
    (ha : G.noise.Admits a.noise) (hb : G.noise.Admits b.noise) :
    (G.fit kind a b).Yields G.scheme.Dry fun p =>
      G.noise.growth kind p.1.noise p.2.noise ≤ max G.noise.budget 1 := by
  have fitted := fit_yields (x := false) (y := false) (preserves_admitted standard) kind ha hb
  apply fitted.mono
  rintro p ⟨admits, settled⟩
  exact settled.gate_le G.workable standard admits.1 admits.2

theorem fitInput_predicts (standard : G.noise.Standard) {a : Bit C}
    (ha : G.noise.Admits a.noise) :
    (G.fitInput a).Yields G.scheme.Dry fun b =>
      G.noise.growth .not b.noise 0 ≤ max G.noise.budget 1 := by
  have fitted := fitInput_yields (x := false) (preserves_admitted standard) ha
  apply fitted.mono
  rintro b ⟨admits, settled⟩
  exact settled.not_le G.workable standard admits

/-- By the usual law every bit that a circuit gives has an estimate that its gates admit, and every
gate is predicted to fit once its operands have been refreshed as planned. A circuit gives no bits
only if it misuses an operation or the scheme runs out of randomness. -/
theorem estimates_admitted {scheme : Scheme C S} (standard : scheme.noise.Standard)
    (accepted : Gates.ofScheme scheme = .ok G) (circuit : Circuit) (s : Session S) :
    (Outcome (fun fault => Exhausted (∃ state, scheme.Dry state) fault ∨
        circuit.eval [] = .error fault)
      (fun bits => ∀ bit ∈ bits, scheme.noise.Admits bit.noise)
      ((circuit.run G []).exec s).1) ∧
    (∀ kind {a b}, scheme.noise.Admits a.noise → scheme.noise.Admits b.noise →
      (G.fit kind a b).Yields scheme.Dry fun p =>
        scheme.noise.growth kind p.1.noise p.2.noise ≤ max scheme.noise.budget 1) ∧
    ∀ {a}, scheme.noise.Admits a.noise → (G.fitInput a).Yields scheme.Dry fun b =>
      scheme.noise.growth .not b.noise 0 ≤ max scheme.noise.budget 1 := by
  obtain rfl := scheme_of_ofScheme accepted
  refine ⟨?_, fit_predicts standard, fitInput_predicts standard⟩
  have hom : G.Homomorphic G.admitted G.scheme.Dry := homomorphic (preserves_admitted standard)
  apply (circuit.run_follows hom .nil s).imp
  · rintro fault (⟨exhausted, dry⟩ | misused)
    · exact .inl ⟨exhausted, _, dry⟩
    · exact .inr misused
  · rintro bits ⟨xs, _, read⟩ bit member
    obtain ⟨_, _, admits⟩ := exists_of_forall₂ read member
    exact admits

/-- A budget with no room above a conjunction of fresh ciphertexts. -/
theorem estimates_admitted_tight :
    let m : NoiseModel := { fresh := 3, budget := 6 }
    let G : Gates Bool Unit := ⟨Scheme.plain m, by decide⟩
    let circuit : Circuit := [.encrypt true, .encrypt false, .and 0 1, .or 2 1, .xorAll [0, 2, 3]]
    Gates.ofScheme (Scheme.plain m) = .ok G ∧
      Outcome (fun fault => Exhausted (∃ state, (Scheme.plain m).Dry state) fault ∨
          circuit.eval [] = .error fault)
        (fun bits => ∀ bit ∈ bits, m.Admits bit.noise) ((circuit.run G []).exec ⟨(), {}⟩).1 ∧
      (G.fit .xor ⟨true, 6⟩ ⟨false, 4⟩).Yields (Scheme.plain m).Dry (fun p =>
        m.growth .xor p.1.noise p.2.noise ≤ max m.budget 1) ∧
      (G.fitInput ⟨true, 6⟩).Yields (Scheme.plain m).Dry fun b =>
        m.growth .not b.noise 0 ≤ max m.budget 1 := by
  intro m G circuit
  have accepted : Gates.ofScheme (Scheme.plain m) = .ok G := ofScheme_scheme G
  have law := estimates_admitted rfl accepted circuit ⟨(), {}⟩
  exact ⟨accepted, law.1, law.2.1 .xor ⟨by decide, by decide⟩ ⟨by decide, by decide⟩,
    law.2.2 ⟨by decide, by decide⟩⟩

/-- A model without noise and without a budget is accepted, and yet an exclusive disjunction of
fresh ciphertexts exceeds the budget. -/
theorem estimate_exceeds_zero_budget :
    let m : NoiseModel := { fresh := 0, budget := 0 }
    let G : Gates Bool Unit := ⟨Scheme.plain m, by decide⟩
    let circuit : Circuit := [.encrypt true, .encrypt false, .xor 0 1]
    Gates.ofScheme (Scheme.plain m) = .ok G ∧
      ((circuit.run G []).exec ⟨(), {}⟩).1 = .ok [⟨true, 0⟩, ⟨false, 0⟩, ⟨true, 1⟩] ∧
      m.budget < 1 := by
  intro m G circuit
  refine ⟨ofScheme_scheme G, ?_, by decide⟩
  decide +kernel

end Gates

end CipherMachine
