import CipherMachine.Noise

set_option autoImplicit false

/-!
Refresh schedules: what a plan leaves of the estimates of a gate's operands.

A plan ends when the gate fits the budget or when both operands are as fresh as a refresh can
make them.
-/

namespace CipherMachine.NoiseModel

/-- The estimates after refreshing the operand on one side. -/
def refreshed (m : NoiseModel) (noise : Nat × Nat) : Side → Nat × Nat
  | .left => (m.fresh, noise.2)
  | .right => (noise.1, m.fresh)

/-- The estimates after a plan has been carried out. -/
def settle (m : NoiseModel) (plan : List Side) (left right : Nat) : Nat × Nat :=
  plan.foldl m.refreshed (left, right)

/-- The estimate of a gate's output after the plan for its operands. -/
def planned (m : NoiseModel) (kind : GateKind) (left right : Nat) : Nat :=
  m.growth kind (m.settle (m.plan kind left right) left right).1
    (m.settle (m.plan kind left right) left right).2

/-- A gate on operands with these estimates fits the budget, or no refresh would help. -/
def Settled (m : NoiseModel) (kind : GateKind) (left right : Nat) : Prop :=
  m.growth kind left right ≤ m.budget ∨ (left ≤ m.fresh ∧ right ≤ m.fresh)

theorem settled_plan (m : NoiseModel) (kind : GateKind) (left right : Nat) :
    m.Settled kind (m.settle (m.plan kind left right) left right).1
      (m.settle (m.plan kind left right) left right).2 := by
  fun_induction NoiseModel.plan m kind left right with
  | case1 left right fits => exact .inl fits
  | case2 left right _ noisy ih => exact ih
  | case3 left right _ _ noisy ih => exact ih
  | case4 left right exceeds calm low =>
      refine .inr ?_
      change left ≤ m.fresh ∧ right ≤ m.fresh
      omega

theorem settled_refreshesInput {m : NoiseModel} {input : Nat}
    (kept : m.refreshesInput input = false) : m.Settled .not input 0 := by
  unfold refreshesInput at kept
  unfold Settled
  simp only [Bool.and_eq_false_iff, decide_eq_false_iff_not] at kept
  omega

/-- A gate that fits on fresh operands fits wherever a plan has ended. -/
theorem Settled.fits {m : NoiseModel} {kind : GateKind} {left right : Nat}
    (settled : m.Settled kind left right) (above : m.fresh ≤ left ∧ m.fresh ≤ right)
    (fresh : m.growth kind m.fresh m.fresh ≤ m.budget) : m.growth kind left right ≤ m.budget := by
  rcases settled with fits | ⟨low, low'⟩
  · exact fits
  · rw [Nat.le_antisymm low above.1, Nat.le_antisymm low' above.2]
    exact fresh

end CipherMachine.NoiseModel
