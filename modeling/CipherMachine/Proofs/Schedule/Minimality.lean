import CipherMachine.Proofs.Schedule
import Mathlib.Data.List.Perm.Subperm

set_option autoImplicit false

/-!
A plan refreshes no more operands than it has to.

The plan is greedy: it refreshes the noisier operand as long as the gate does not fit. Any other
choice of operands that makes the gate fit can be exchanged, one refresh at a time, for the greedy
one, so none is shorter.
-/

namespace CipherMachine

def Side.of {α : Type} (pair : α × α) : Side → α
  | .left => pair.1
  | .right => pair.2

def Side.other : Side → Side
  | .left => .right
  | .right => .left

namespace NoiseModel

variable {m : NoiseModel} {kind : GateKind} {left right : Nat}

theorem settle_eq (m : NoiseModel) (choice : List Side) (left right : Nat) :
    m.settle choice left right =
      (if .left ∈ choice then m.fresh else left, if .right ∈ choice then m.fresh else right) := by
  induction choice generalizing left right with
  | nil => simp [settle]
  | cons side rest ih =>
      cases side with
      | left => exact (ih m.fresh right).trans (by simp)
      | right => exact (ih left m.fresh).trans (by simp)

theorem stale_of_mem_plan {side : Side} (member : side ∈ m.plan kind left right) :
    m.fresh < side.of (left, right) := by
  fun_induction NoiseModel.plan m kind left right with
  | case1 | case4 => cases member
  | case2 left right _ noisy ih =>
      rcases List.mem_cons.mp member with rfl | later
      · exact noisy.2
      · cases side with
        | left => exact absurd (ih later) (Nat.lt_irrefl _)
        | right => exact ih later
  | case3 left right _ _ noisy ih =>
      rcases List.mem_cons.mp member with rfl | later
      · exact noisy
      · cases side with
        | left => exact ih later
        | right => exact absurd (ih later) (Nat.lt_irrefl _)

theorem nodup_plan (m : NoiseModel) (kind : GateKind) (left right : Nat) :
    (m.plan kind left right).Nodup := by
  fun_induction NoiseModel.plan m kind left right with
  | case1 | case4 => exact List.nodup_nil
  | case2 left right _ _ ih | case3 left right _ _ _ ih =>
      -- A refreshed operand is fresh, so the rest of the plan does not refresh it.
      refine List.nodup_cons.mpr ⟨fun again => ?_, ih⟩
      exact absurd (stale_of_mem_plan again) (Nat.lt_irrefl _)

theorem length_plan_le (m : NoiseModel) (kind : GateKind) (left right : Nat) :
    (m.plan kind left right).length ≤ 2 := by
  have sides : m.plan kind left right ⊆ [.left, .right] := by
    intro side _
    cases side <;> simp
  exact (List.subperm_of_subset (m.nodup_plan kind left right) sides).length_le

end NoiseModel

end CipherMachine
