import CipherMachine.Gates.Arithmetic
import CipherMachine.Gates.Selection
import CipherMachine.Proofs.Cost.Refreshes

set_option autoImplicit false

/-!
The gates that each operation on bits and words evaluates.

The counts depend on widths only. Refreshes are no gates, so neither the estimates of the operands
nor the budget can change them.
-/

namespace CipherMachine

open GateM

variable {C S : Type}

section

variable {combine : Bit C → Bit C → GateM S (Bit C)} {cost : Nat × Nat × Nat}

/-- A pass combines all bits but an odd last one. -/
theorem pairwise_spends
    (law : ∀ a b, Spends GateStats.gates (combine a b) cost fun _ => True) (bits : List (Bit C)) :
    Spends GateStats.gates (pairwise combine bits) ((bits.length / 2) • cost)
      fun out => out.length = (bits.length + 1) / 2 := by
  induction bits using pairwise.induct with
  | case1 first second rest ih =>
      have halves : (first :: second :: rest).length / 2 = rest.length / 2 + 1 := by
        simp only [List.length_cons]
        omega
      have chain := (law first second).bind fun head _ => ih.bind fun tail length =>
        Spends.pure (a := head :: tail) (P := fun out => out.length = (rest.length + 1) / 2 + 1)
          (by simp [length])
      refine (chain.as _ ?_).mono fun out length => ?_
      · rw [halves, succ_nsmul', add_zero]
      · simp only [List.length_cons]
        omega
  | case2 last =>
      have alone : [last].length / 2 = 0 := by simp
      rw [alone, zero_nsmul]
      exact .pure (by simp)
  | case3 =>
      have empty : ([] : List (Bit C)).length / 2 = 0 := by simp
      rw [empty, zero_nsmul]
      exact .pure (by simp)

/-- Passes down to one bit combine once for every bit but one. -/
theorem passes_spends
    (law : ∀ a b, Spends GateStats.gates (combine a b) cost fun _ => True) (length : Nat)
    {bits : List (Bit C)} (measured : bits.length = length) :
    Spends GateStats.gates (passes combine (passCount length) bits) ((length - 1) • cost)
      fun _ => True := by
  induction length using passCount.induct generalizing bits with
  | case1 length short =>
      have none : length - 1 = 0 := by omega
      rw [passCount, if_pos short, none, zero_nsmul]
      exact .pure trivial
  | case2 length long ih =>
      have split : length / 2 + ((length + 1) / 2 - 1) = length - 1 := by omega
      rw [passCount, if_neg long]
      have first := pairwise_spends law bits
      rw [measured] at first
      apply (first.bind fun layer half => ih half).as
      rw [← add_nsmul, split]

theorem reduce_spends
    (law : ∀ a b, Spends GateStats.gates (combine a b) cost fun _ => True) (bits : List (Bit C)) :
    Spends GateStats.gates (Gates.reduce combine bits) ((bits.length - 1) • cost)
      fun _ => True := by
  cases bits with
  | nil => exact .throw .emptyReduction
  | cons first rest =>
      have start : (first :: rest).length = rest.length + 1 := rfl
      have chain := (passes_spends law _ start).bind fun top _ =>
        Spends.pure (a := top.headD first) (P := fun _ => True) trivial
      exact chain.as _ (add_zero _)

end

namespace Gates

variable (G : Gates C S)

theorem not_spends (a : Bit C) : Spends GateStats.gates (G.not a) (0, 0, 1) fun _ => True :=
  (G.not_counts a).gates

theorem and_spends (a b : Bit C) : Spends GateStats.gates (G.and a b) (1, 0, 0) fun _ => True :=
  (G.and_counts a b).gates

theorem xor_spends (a b : Bit C) : Spends GateStats.gates (G.xor a b) (0, 1, 0) fun _ => True :=
  (G.xor_counts a b).gates

theorem or_spends (a b : Bit C) :
    Spends GateStats.gates (G.or a b) (1, 2, 0) fun _ => True :=
  (G.xor_spends a b).bind fun sum _ => (G.and_spends a b).bind fun carry _ => G.xor_spends sum carry

theorem select_spends (selector chosen other : Bit C) :
    Spends GateStats.gates (G.select selector chosen other) (1, 2, 0) fun _ => True :=
  (G.xor_spends chosen other).bind fun difference _ =>
    (G.and_spends selector difference).bind fun masked _ => G.xor_spends other masked

variable (bits : List (Bit C)) {n : Nat}

theorem andAll_spends (length : bits.length = n) :
    Spends GateStats.gates (G.andAll bits) (n - 1, 0, 0) fun _ => True := by
  have spends := reduce_spends G.and_spends bits
  rw [length] at spends
  exact spends.as _ (by simp)

theorem orAll_spends (length : bits.length = n) :
    Spends GateStats.gates (G.orAll bits) (n - 1, 2 * (n - 1), 0) fun _ => True := by
  have spends := reduce_spends G.or_spends bits
  rw [length] at spends
  exact spends.as _ (by simp [Nat.mul_comm])

theorem xorAll_spends (length : bits.length = n) :
    Spends GateStats.gates (G.xorAll bits) (0, n - 1, 0) fun _ => True := by
  have spends := reduce_spends G.xor_spends bits
  rw [length] at spends
  exact spends.as _ (by simp)

end Gates

end CipherMachine
