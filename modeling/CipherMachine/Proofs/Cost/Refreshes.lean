import CipherMachine.Proofs.Cost.Basic
import CipherMachine.Proofs.Schedule.Minimality

set_option autoImplicit false

/-!
What a gate costs with its refreshes.

A gate counts itself once and a refresh for each operand in the plan that its estimates call for.
-/

namespace CipherMachine

open GateM

variable {C S : Type}

namespace Gates

variable (G : Gates C S)

/-- The operands after a refresh of those on the given sides. -/
def Fitted (plan : List Side) (operands fitted : Bit C × Bit C) : Prop :=
  ∀ side : Side, if side ∈ plan then (side.of fitted).noise = G.noise.fresh
    else side.of fitted = side.of operands

variable {G}

theorem Fitted.cons {side : Side} {rest : List Side} {p q r : Bit C × Bit C}
    (first : G.Fitted [side] p q) (later : G.Fitted rest q r) : G.Fitted (side :: rest) p r := by
  intro other
  have now := first other
  have then' := later other
  by_cases again : other ∈ rest
  · rw [if_pos again] at then'
    rw [if_pos (List.mem_cons_of_mem side again)]
    exact then'
  · rw [if_neg again] at then'
    rw [then']
    simpa [again] using now

theorem Fitted.noise {plan : List Side} {a b : Bit C} {p : Bit C × Bit C}
    (fitted : G.Fitted plan (a, b) p) :
    (p.1.noise, p.2.noise) = G.noise.settle plan a.noise b.noise := by
  have estimate (side : Side) : (side.of p).noise =
      if side ∈ plan then G.noise.fresh else (side.of (a, b)).noise := by
    have held := fitted side
    by_cases member : side ∈ plan
    · rw [if_pos member] at held ⊢
      exact held
    · rw [if_neg member] at held ⊢
      rw [held]
  rw [NoiseModel.settle_eq]
  exact Prod.ext (estimate .left) (estimate .right)

variable (G)

theorem refresh_counts (a : Bit C) :
    (G.refresh a).Spends GateStats.counters (0, 0, 0, 1) fun b => b.noise = G.noise.fresh := by
  have fresh (c : C) : (pure ⟨c, G.noise.fresh⟩ : GateM S (Bit C)).Spends GateStats.counters 0
      fun b => b.noise = G.noise.fresh := .pure rfl
  exact (Spends.count (0, 0, 0, 1) fun _ => rfl).bind fun _ _ =>
    (Spends.call _).bind fun c _ => fresh c

theorem refreshSide_counts (operands : Bit C × Bit C) (side : Side) :
    (G.refreshSide operands side).Spends GateStats.counters (0, 0, 0, 1)
      (G.Fitted [side] operands) := by
  cases side with
  | left =>
      refine (G.refresh_counts operands.1).bind fun a fresh => .pure fun other => ?_
      cases other with
      | left => exact fresh
      | right => rfl
  | right =>
      refine (G.refresh_counts operands.2).bind fun b fresh => .pure fun other => ?_
      cases other with
      | left => rfl
      | right => exact fresh

theorem fit_counts (kind : GateKind) (a b : Bit C) :
    (G.fit kind a b).Spends GateStats.counters
      (0, 0, 0, (G.noise.plan kind a.noise b.noise).length)
      (G.Fitted (G.noise.plan kind a.noise b.noise) (a, b)) := by
  unfold fit
  generalize G.noise.plan kind a.noise b.noise = plan
  generalize (a, b) = operands
  induction plan generalizing operands with
  | nil => exact .pure fun _ => rfl
  | cons side rest ih =>
      have cost : (0, 0, 0, (side :: rest).length) = (0, 0, 0, 1) + (0, 0, 0, rest.length) := by
        rw [List.length_cons, Nat.add_comm]
        rfl
      rw [List.foldlM_cons, cost]
      refine (G.refreshSide_counts operands side).bind fun p first => ?_
      exact (ih p).mono fun q later => first.cons later

theorem fitInput_counts (a : Bit C) :
    (G.fitInput a).Spends GateStats.counters (0, 0, 0, (G.noise.refreshesInput a.noise).toNat)
      fun _ => True := by
  unfold fitInput
  split
  · rename_i refreshed
    rw [refreshed]
    exact (G.refresh_counts a).mono fun _ _ => trivial
  · rename_i kept
    rw [Bool.eq_false_iff.mpr kept]
    exact .pure trivial

theorem eval_counts (gate : Gate C) (noise : Nat) :
    (G.eval gate noise).Spends GateStats.counters (0, 0, 0, 0) fun c => c.noise = noise := by
  have noisy (cipher : C) : (pure ⟨cipher, noise⟩ : GateM S (Bit C)).Spends GateStats.counters 0
      fun c => c.noise = noise := .pure rfl
  exact (Spends.call _).bind fun cipher _ => noisy cipher

theorem not_counts (a : Bit C) :
    (G.not a).Spends GateStats.counters (0, 0, 1, (G.noise.refreshesInput a.noise).toNat)
      fun _ => True :=
  ((G.fitInput_counts a).bind fun _ _ => (Spends.count (0, 0, 1, 0) fun _ => rfl).bind fun _ _ =>
    (G.eval_counts _ _).mono fun _ _ => trivial).as _ (by simp)

/-- A gate on fitted operands has the estimate that the plan leads to. -/
theorem fitted_estimate (kind : GateKind) (gate : C → C → Gate C) {f : GateStats → GateStats}
    {ands xors : Nat} (counts : ∀ s, (f s).counters = s.counters + (ands, xors, 0, 0))
    (a b : Bit C) :
    (do
      let p ← G.fit kind a b
      GateM.count f
      G.eval (gate p.1.cipher p.2.cipher) (G.noise.growth kind p.1.noise p.2.noise) :
        GateM S (Bit C)).Spends
        GateStats.counters (ands, xors, 0, (G.noise.plan kind a.noise b.noise).length)
        fun c => c.noise = G.noise.planned kind a.noise b.noise := by
  have counted : (GateM.count f : GateM S Unit).Spends GateStats.counters (ands, xors, 0, 0)
      fun _ => True := Spends.count _ counts
  have chain := (G.fit_counts kind a b).bind fun p fitted => counted.bind fun _ _ =>
    (G.eval_counts (gate p.1.cipher p.2.cipher) (G.noise.growth kind p.1.noise p.2.noise)).mono
      (Q := fun c => c.noise = G.noise.planned kind a.noise b.noise) fun c same => by
        rw [same, NoiseModel.planned, ← fitted.noise]
  exact chain.as _ (by simp)

theorem and_estimate (a b : Bit C) :
    (G.and a b).Spends GateStats.counters (1, 0, 0, (G.noise.plan .and a.noise b.noise).length)
      fun c => c.noise = G.noise.planned .and a.noise b.noise :=
  G.fitted_estimate .and .and (fun _ => rfl) a b

theorem xor_estimate (a b : Bit C) :
    (G.xor a b).Spends GateStats.counters (0, 1, 0, (G.noise.plan .xor a.noise b.noise).length)
      fun c => c.noise = G.noise.planned .xor a.noise b.noise :=
  G.fitted_estimate .xor .xor (fun _ => rfl) a b

theorem and_counts (a b : Bit C) :
    (G.and a b).Spends GateStats.counters
      (1, 0, 0, (G.noise.plan .and a.noise b.noise).length) fun _ => True :=
  (G.and_estimate a b).mono fun _ _ => trivial

theorem xor_counts (a b : Bit C) :
    (G.xor a b).Spends GateStats.counters
      (0, 1, 0, (G.noise.plan .xor a.noise b.noise).length) fun _ => True :=
  (G.xor_estimate a b).mono fun _ _ => trivial

end Gates

end CipherMachine
