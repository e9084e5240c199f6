set_option autoImplicit false

/-!
Noise estimates.

A ciphertext carries noise, which every gate adds to and a refresh sets back. By the usual law
estimates count bits and saturate at `noiseCap`: the noise of a product is the sum of its factors'
noise, a sum or a negation has one bit more than its noisiest operand. A model may have another law.

`NoiseModel.plan` decides which operands of a gate to refresh. It looks at estimates only, so
refreshes never depend on encrypted values.
-/

namespace CipherMachine

def noiseCap : Nat := 0xFFFFFFFF

inductive GateKind where
  | and
  | xor
  | not
  deriving DecidableEq, Repr

/-- The usual estimate of a gate's output, given those of its operands. A negation has no second
operand and ignores its estimate. -/
def GateKind.noise : GateKind → Nat → Nat → Nat
  | .and, left, right => min (left + right) noiseCap
  | .xor, left, right => min (max left right + 1) noiseCap
  | .not, input, _ => min (input + 1) noiseCap

/-- How noisy a fresh ciphertext is, the largest noise that still decrypts correctly, and the law
by which gates add noise. -/
structure NoiseModel where
  fresh : Nat
  budget : Nat
  fresh_le : fresh ≤ noiseCap := by decide
  budget_le : budget ≤ noiseCap := by decide
  growth : GateKind → Nat → Nat → Nat := GateKind.noise

inductive Side where
  | left
  | right
  deriving DecidableEq, Repr

namespace NoiseModel

/-- The model without noise and without a limit. -/
def noiseless : NoiseModel := { fresh := 0, budget := noiseCap }

/-- The model with the given estimates, cut off at the largest estimate. -/
def capped (fresh budget : Nat) : NoiseModel where
  fresh := min fresh noiseCap
  budget := min budget noiseCap
  fresh_le := Nat.min_le_right _ _
  budget_le := Nat.min_le_right _ _

/-- Noise grows by the usual law. -/
abbrev Standard (m : NoiseModel) : Prop := m.growth = GateKind.noise

/-- The noise of a conjunction of two fresh ciphertexts. -/
def freshAnd (m : NoiseModel) : Nat := m.growth .and m.fresh m.fresh

/-- A conjunction of fresh ciphertexts fits the budget. Otherwise no refresh could make one
decrypt correctly. -/
abbrev Workable (m : NoiseModel) : Prop := m.freshAnd ≤ m.budget

/-- The operands to refresh, in order, before a gate on operands with the given noise. As long as
the gate does not fit the budget, the noisier operand is refreshed, and the left one of two that
are equally noisy; an operand that is already fresh is left alone. -/
def plan (m : NoiseModel) (kind : GateKind) (left right : Nat) : List Side :=
  if m.growth kind left right ≤ m.budget then
    []
  else if right ≤ left ∧ m.fresh < left then
    .left :: m.plan kind m.fresh right
  else if m.fresh < right then
    .right :: m.plan kind left m.fresh
  else
    []
termination_by (left - m.fresh) + (right - m.fresh)
decreasing_by all_goals omega

/-- Whether an input with the given noise is refreshed before its negation. -/
def refreshesInput (m : NoiseModel) (input : Nat) : Bool :=
  decide (m.budget < m.growth .not input 0) && decide (m.fresh < input)

end NoiseModel

end CipherMachine
