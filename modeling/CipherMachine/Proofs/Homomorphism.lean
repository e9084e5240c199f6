import CipherMachine.Proofs.Digits
import CipherMachine.Proofs.Outcome
import CipherMachine.Proofs.Schedule
import CipherMachine.Scheme.Recorded

set_option autoImplicit false

/-!
What encrypted bits stand for.

A reading relates encrypted bits to booleans. Gates are homomorphic for a reading if every
operation on bits that stand for booleans answers with a bit that stands for the operation's
boolean function of them. `Scheme.Preserves` says the same of a scheme's ciphertexts;
`Gates.homomorphic` carries it over to gates, with all their refreshes.
-/

namespace CipherMachine

variable {C S : Type}

/-- `V c n x` is read as: the ciphertext `c`, with an estimate of `n`, encrypts `x`. Gates may
count on a refresh schedule that has settled. -/
structure Scheme.Preserves (scheme : Scheme C S) (V : C → Nat → Bool → Prop) (dry : S → Prop) :
    Prop where
  encrypt : ∀ x s, GateM.Gives (dry s) (V · scheme.noise.fresh x) (scheme.encrypt x s)
  refresh : ∀ {c n x}, V c n x → ∀ s,
    GateM.Gives (dry s) (V · scheme.noise.fresh x) (scheme.refresh c s)
  not : ∀ {c n x}, V c n x → scheme.noise.Settled .not n 0 → ∀ s,
    V (scheme.eval (.not c) s).1 (scheme.noise.growth .not n 0) (!x)
  and : ∀ {c d n k x y}, V c n x → V d k y → scheme.noise.Settled .and n k → ∀ s,
    V (scheme.eval (.and c d) s).1 (scheme.noise.growth .and n k) (x && y)
  xor : ∀ {c d n k x y}, V c n x → V d k y → scheme.noise.Settled .xor n k → ∀ s,
    V (scheme.eval (.xor c d) s).1 (scheme.noise.growth .xor n k) (x ^^ y)

/-- Recording calls changes no ciphertext. -/
theorem Scheme.Preserves.recorded {scheme : Scheme C S} {V : C → Nat → Bool → Prop}
    {dry : S → Prop} (law : scheme.Preserves V dry) :
    scheme.recorded.Preserves V fun s => dry s.inner where
  encrypt x s := (law.encrypt x s.inner).map fun inner => Recorded.mk inner (.encrypt :: s.calls)
  refresh valid s := (law.refresh valid s.inner).map fun inner =>
    Recorded.mk inner (.refresh :: s.calls)
  not valid settled s := law.not valid settled s.inner
  and left right settled s := law.and left right settled s.inner
  xor left right settled s := law.xor left right settled s.inner

/-- The scheme has run out of randomness: some encryption or refresh gives nothing. -/
def Scheme.Dry (scheme : Scheme C S) (s : S) : Prop :=
  (∃ x, scheme.encrypt x s = none) ∨ ∃ c, scheme.refresh c s = none

/-- A property of estimates alone that every operation keeps. Nothing is said of ciphertexts, so
it holds under any scheme with these estimates. -/
theorem Scheme.preserves_estimates (scheme : Scheme C S) {W : Nat → Prop}
    (fresh : W scheme.noise.fresh)
    (not : ∀ {n}, W n → scheme.noise.Settled .not n 0 → W (scheme.noise.growth .not n 0))
    (gate : ∀ kind {n k}, W n → W k → scheme.noise.Settled kind n k →
      W (scheme.noise.growth kind n k)) :
    scheme.Preserves (fun _ n _ => W n) scheme.Dry where
  encrypt x s := by
    cases answer : scheme.encrypt x s with
    | none => exact .inl ⟨x, answer⟩
    | some _ => exact fresh
  refresh {c _ _} _ s := by
    cases answer : scheme.refresh c s with
    | none => exact .inr ⟨c, answer⟩
    | some _ => exact fresh
  not valid settled _ := not valid settled
  and left right settled _ := gate .and left right settled
  xor left right settled _ := gate .xor left right settled

/-- Every operation on bits that stand for booleans gives a bit that stands for its result. -/
structure Gates.Homomorphic (G : Gates C S) (reads : Bit C → Bool → Prop) (dry : S → Prop) :
    Prop where
  encrypt : ∀ x, (G.encrypt x).Yields dry (reads · x)
  refresh : ∀ {a x}, reads a x → (G.refresh a).Yields dry (reads · x)
  not : ∀ {a x}, reads a x → (G.not a).Yields dry (reads · !x)
  and : ∀ {a b x y}, reads a x → reads b y → (G.and a b).Yields dry (reads · (x && y))
  xor : ∀ {a b x y}, reads a x → reads b y → (G.xor a b).Yields dry (reads · (x ^^ y))

namespace Gates

open GateM

theorem ofScheme_scheme (G : Gates C S) : ofScheme G.scheme = .ok G := dif_pos G.workable

theorem scheme_of_ofScheme {scheme : Scheme C S} {G : Gates C S}
    (accepted : ofScheme scheme = .ok G) : G.scheme = scheme := by
  unfold ofScheme at accepted
  split at accepted
  · obtain rfl := Except.ok.inj accepted
    rfl
  · cases accepted

/-- The reading that a property of ciphertexts and estimates gives. -/
def reading (V : C → Nat → Bool → Prop) (bit : Bit C) (x : Bool) : Prop :=
  V bit.cipher bit.noise x

variable {scheme : Scheme C S} {V : C → Nat → Bool → Prop} {dry : S → Prop} {G : Gates C S}

theorem refresh_yields (law : G.scheme.Preserves V dry) {a : Bit C} {x : Bool}
    (ha : reading V a x) :
    (G.refresh a).Yields dry fun b => reading V b x ∧ b.noise = G.noise.fresh := by
  refine (Yields.count _).bind fun _ _ => ?_
  refine (Yields.call (law.refresh ha)).bind fun cipher valid => ?_
  exact .pure ⟨valid, rfl⟩

theorem refreshSide_yields (law : G.scheme.Preserves V dry) {a b : Bit C} {x y : Bool}
    (ha : reading V a x) (hb : reading V b y) (side : Side) :
    (G.refreshSide (a, b) side).Yields dry fun p =>
      (reading V p.1 x ∧ reading V p.2 y) ∧
        (p.1.noise, p.2.noise) = G.noise.refreshed (a.noise, b.noise) side := by
  cases side with
  | left =>
      refine (refresh_yields law ha).bind fun c ⟨valid, fresh⟩ => ?_
      exact .pure ⟨⟨valid, hb⟩, by rw [fresh]; rfl⟩
  | right =>
      refine (refresh_yields law hb).bind fun c ⟨valid, fresh⟩ => ?_
      exact .pure ⟨⟨ha, valid⟩, by rw [fresh]; rfl⟩

/-- Fitted operands stand for the same booleans, and their estimates are as planned. -/
theorem fit_yields (law : G.scheme.Preserves V dry) (kind : GateKind) {a b : Bit C} {x y : Bool}
    (ha : reading V a x) (hb : reading V b y) :
    (G.fit kind a b).Yields dry fun p =>
      (reading V p.1 x ∧ reading V p.2 y) ∧ G.noise.Settled kind p.1.noise p.2.noise := by
  have planned : ∀ (plan : List Side) (a b : Bit C), reading V a x → reading V b y →
      (plan.foldlM G.refreshSide (a, b)).Yields dry fun p =>
        (reading V p.1 x ∧ reading V p.2 y) ∧
          (p.1.noise, p.2.noise) = G.noise.settle plan a.noise b.noise := by
    intro plan
    induction plan with
    | nil =>
        intro a b ha hb
        exact .pure ⟨⟨ha, hb⟩, rfl⟩
    | cons side rest ih =>
        intro a b ha hb
        rw [List.foldlM_cons]
        refine (refreshSide_yields law ha hb side).bind fun p ⟨valid, noise⟩ => ?_
        refine (ih p.1 p.2 valid.1 valid.2).mono fun q ⟨valid, settled⟩ => ⟨valid, ?_⟩
        rw [settled]
        unfold NoiseModel.settle
        rw [noise, List.foldl_cons]
  refine (planned _ a b ha hb).mono fun p ⟨valid, noise⟩ => ⟨valid, ?_⟩
  have settled := G.noise.settled_plan kind a.noise b.noise
  rw [← noise] at settled
  exact settled

theorem fitInput_yields (law : G.scheme.Preserves V dry) {a : Bit C} {x : Bool}
    (ha : reading V a x) :
    (G.fitInput a).Yields dry fun b => reading V b x ∧ G.noise.Settled .not b.noise 0 := by
  unfold fitInput
  split
  · refine (refresh_yields law ha).mono fun b ⟨valid, fresh⟩ => ⟨valid, .inr ?_⟩
    exact ⟨Nat.le_of_eq fresh, Nat.zero_le _⟩
  · rename_i kept
    exact .pure ⟨ha, NoiseModel.settled_refreshesInput (Bool.eq_false_iff.mpr kept)⟩

theorem eval_yields {gate : Gate C} {noise : Nat} {x : Bool}
    (valid : ∀ s, V (G.scheme.eval gate s).1 noise x) :
    (G.eval gate noise).Yields dry (reading V · x) := by
  refine (Yields.call (P := (V · noise x)) valid).bind fun cipher result => ?_
  exact .pure result

/-- Gates take over what a scheme preserves, through every refresh. -/
theorem homomorphic (law : G.scheme.Preserves V dry) : G.Homomorphic (reading V) dry where
  encrypt x := by
    refine (Yields.call (law.encrypt x)).bind fun cipher valid => ?_
    exact .pure valid
  refresh ha := (refresh_yields law ha).mono fun _ answer => answer.1
  not ha := by
    refine (fitInput_yields law ha).bind fun a ⟨valid, settled⟩ => ?_
    refine (Yields.count _).bind fun _ _ => ?_
    exact eval_yields (law.not valid settled)
  and ha hb := by
    refine (fit_yields law .and ha hb).bind fun p ⟨valid, settled⟩ => ?_
    refine (Yields.count _).bind fun _ _ => ?_
    exact eval_yields (law.and valid.1 valid.2 settled)
  xor ha hb := by
    refine (fit_yields law .xor ha hb).bind fun p ⟨valid, settled⟩ => ?_
    refine (Yields.count _).bind fun _ _ => ?_
    exact eval_yields (law.xor valid.1 valid.2 settled)

end Gates

end CipherMachine
