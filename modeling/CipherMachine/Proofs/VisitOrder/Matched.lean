import CipherMachine.Proofs.Cost.Basic
import CipherMachine.Proofs.Lockstep.Basic

set_option autoImplicit false

/-!
Computations that cost the same from whatever sessions they are run.

Lockstep is too much to ask of computations that find the scheme in different states: randomness may
run out in one of them and not in the other. `GateM.Matched m m' T` says that whenever both answer,
`T` relates the answers and both have added the same to all four counters. Refreshes are scheduled
by estimates alone, so gates are matched on bits with the same estimates, whatever the bits encrypt
and whatever randomness the refreshes draw.
-/

namespace CipherMachine

namespace GateM

variable {S α β γ δ : Type}

/-- From some session the computation answers `a`. -/
def Answers (m : GateM S α) (a : α) : Prop := ∃ s t, m.exec s = (.ok a, t)

def Matched (m : GateM S α) (m' : GateM S β) (T : α → β → Prop) : Prop :=
  ∀ ⦃s s' t t' a b⦄, m.exec s = (.ok a, t) → m'.exec s' = (.ok b, t') → T a b ∧
    ∃ spent, t.stats.counters = s.stats.counters + spent ∧
      t'.stats.counters = s'.stats.counters + spent

namespace Matched

variable {m : GateM S α} {m' : GateM S β} {T : α → β → Prop}

theorem pure {a : α} {b : β} (holds : T a b) :
    Matched (Pure.pure a : GateM S α) (Pure.pure b : GateM S β) T := by
  intro s s' t t' _ _ first second
  cases first
  cases second
  exact ⟨holds, 0, rfl, rfl⟩

theorem bind {f : α → GateM S γ} {f' : β → GateM S δ} {U : γ → δ → Prop} (first : Matched m m' T)
    (next : ∀ a b, T a b → Matched (f a) (f' b) U) : Matched (m >>= f) (m' >>= f') U := by
  intro s s' u u' c d answer answer'
  obtain ⟨a, t, start, rest⟩ := exec_bind_ok answer
  obtain ⟨b, t', start', rest'⟩ := exec_bind_ok answer'
  obtain ⟨both, spent, before, before'⟩ := first start start'
  obtain ⟨holds, more, after, after'⟩ := next a b both rest rest'
  refine ⟨holds, spent + more, ?_, ?_⟩
  · rw [after, before, add_assoc]
  · rw [after', before', add_assoc]

theorem throw (fault : Fault) : Matched (MonadExcept.throw fault : GateM S α) m' T := by
  intro s s' t t' a b first
  cases first

theorem compositional : Compositional fun _ _ m m' T => Matched (S := S) m m' T :=
  ⟨pure, fun fault => throw fault, bind⟩

theorem call {C : Type} (operation operation' : S → Option (C × S)) :
    Matched (GateM.call operation) (GateM.call operation') fun _ _ => True := by
  intro s s' t t' a b first second
  rw [exec_call] at first second
  cases drawn : operation s.state with
  | none =>
      rw [drawn] at first
      cases first
  | some result =>
      cases drawn' : operation' s'.state with
      | none =>
          rw [drawn'] at second
          cases second
      | some result' =>
          rw [drawn] at first
          rw [drawn'] at second
          cases first
          cases second
          exact ⟨trivial, 0, rfl, rfl⟩

theorem count {f : GateStats → GateStats} (cost : Nat × Nat × Nat × Nat)
    (adds : ∀ s, (f s).counters = s.counters + cost) :
    Matched (GateM.count (S := S) f) (GateM.count f) fun _ _ => True := by
  intro s s' t t' _ _ first second
  cases first
  cases second
  exact ⟨trivial, cost, adds s.stats, adds s'.stats⟩

/-- A computation that is matched with itself costs the same whenever it answers. -/
theorem spends {T : α → α → Prop} (matched : Matched m m T) :
    ∃ cost, Spends GateStats.counters m cost m.Answers := by
  by_cases answers : ∃ s a t, m.exec s = (.ok a, t)
  · obtain ⟨s₀, a₀, t₀, known⟩ := answers
    obtain ⟨_, cost, counted, _⟩ := matched known known
    refine ⟨cost, fun s => ?_⟩
    rcases result : m.exec s with ⟨_ | a, t⟩
    · trivial
    · obtain ⟨_, spent, before, after⟩ := matched known result
      have same : spent = cost := by
        rw [counted] at before
        exact (add_left_cancel before).symm
      rw [same] at after
      exact ⟨⟨s, t, result⟩, after⟩
  · refine ⟨0, fun s => ?_⟩
    rcases result : m.exec s with ⟨_ | a, t⟩
    · trivial
    · exact absurd ⟨s, a, t, result⟩ answers

theorem answers (matched : Matched m m' T) {a : α} {b : β} (left : m.Answers a)
    (right : m'.Answers b) : T a b := by
  obtain ⟨s, t, first⟩ := left
  obtain ⟨s', t', second⟩ := right
  exact (matched first second).1

theorem of_spends {cost : Nat × Nat × Nat × Nat} {P : α → Prop} {Q : β → Prop}
    (left : Spends GateStats.counters m cost P) (right : Spends GateStats.counters m' cost Q)
    (holds : ∀ a b, P a → Q b → T a b) : Matched m m' T := by
  intro s s' t t' a b first second
  have known := left s
  have known' := right s'
  rw [first] at known
  rw [second] at known'
  exact ⟨holds a b known.1 known'.1, cost, known.2, known'.2⟩

end Matched

/-- The same of two computations that are run from one session. -/
def Level (m : GateM S α) (m' : GateM S β) (T : α → β → Prop) : Prop :=
  ∀ ⦃s t t' a b⦄, m.exec s = (.ok a, t) → m'.exec s = (.ok b, t') → T a b ∧ t.stats = t'.stats

theorem Matched.level {m : GateM S α} {m' : GateM S β} {T : α → β → Prop}
    (matched : Matched m m' T) : Level m m' T := by
  intro s t t' a b first second
  obtain ⟨holds, spent, counted, counted'⟩ := matched first second
  exact ⟨holds, GateStats.counters_inj (counted.trans counted'.symm)⟩

namespace Level

variable {T : β → γ → Prop}

/-- What comes before on both sides leaves one session to both. -/
theorem after {M : Type} [AddCommMonoid M] {tally : GateStats → M} {cost : M} {P : α → Prop}
    {m : GateM S α} {f : α → GateM S β} {f' : α → GateM S γ} (first : Spends tally m cost P)
    (next : ∀ a, P a → Level (f a) (f' a) T) : Level (m >>= f) (m >>= f') T := by
  intro s u u' b c answer answer'
  obtain ⟨a, t, start, rest⟩ := exec_bind_ok answer
  obtain ⟨a', t', start', rest'⟩ := exec_bind_ok answer'
  rw [start] at start'
  cases start'
  have known := first s
  rw [start] at known
  exact next a known.1 rest rest'

theorem guarded {guard : Prop} [Decidable guard] {fault : Fault} {f : Unit → GateM S β}
    {f' : Unit → GateM S γ} (next : ¬ guard → Level (f ()) (f' ()) T) :
    Level (if guard then (MonadExcept.throw fault : GateM S Unit) >>= f else f ())
      (if guard then (MonadExcept.throw fault : GateM S Unit) >>= f' else f' ()) T := by
  by_cases fails : guard
  · rw [if_pos fails, if_pos fails]
    intro s t t' a b first
    cases first
  · rw [if_neg fails, if_neg fails]
    exact next fails

end Level

end GateM

open GateM

variable {C S : Type}

namespace Gates

variable (G : Gates C S) {a b c d : Bit C}

theorem refresh_matched (a b : Bit C) : Matched (G.refresh a) (G.refresh b) Bit.Alike := by
  apply (Matched.count (0, 0, 0, 1) fun _ => rfl).bind
  intro _ _ _
  exact (Matched.call _ _).bind fun _ _ _ => .pure rfl

/-- The plan is the same for operands that are alike. -/
theorem fit_matched (kind : GateKind) (ha : Bit.Alike a b) (hc : Bit.Alike c d) :
    Matched (G.fit kind a c) (G.fit kind b d)
      fun p q => Bit.Alike p.1 q.1 ∧ Bit.Alike p.2 q.2 := by
  have left : a.noise = b.noise := ha
  have right : c.noise = d.noise := hc
  unfold Gates.fit
  rw [left, right]
  generalize G.noise.plan kind b.noise d.noise = plan
  clear left right
  induction plan generalizing a b c d with
  | nil => exact .pure ⟨ha, hc⟩
  | cons side rest ih =>
      rw [List.foldlM_cons, List.foldlM_cons]
      have refreshed : Matched (G.refreshSide (a, c) side) (G.refreshSide (b, d) side)
          fun p q => Bit.Alike p.1 q.1 ∧ Bit.Alike p.2 q.2 := by
        cases side with
        | left => exact (G.refresh_matched a b).bind fun _ _ fresh => .pure ⟨fresh, hc⟩
        | right => exact (G.refresh_matched c d).bind fun _ _ fresh => .pure ⟨ha, fresh⟩
      exact refreshed.bind fun _ _ both => ih both.1 both.2

theorem eval_matched (g h : Gate C) {n n' : Nat} (noise : n = n') :
    Matched (G.eval g n) (G.eval h n') Bit.Alike :=
  (Matched.call _ _).bind fun _ _ _ => .pure noise

theorem and_matched (ha : Bit.Alike a b) (hc : Bit.Alike c d) :
    Matched (G.and a c) (G.and b d) Bit.Alike := by
  apply (G.fit_matched .and ha hc).bind
  intro p q both
  apply (Matched.count (1, 0, 0, 0) fun _ => rfl).bind
  intro _ _ _
  exact G.eval_matched _ _ (congrArg₂ (G.noise.growth .and) both.1 both.2)

theorem xor_matched (ha : Bit.Alike a b) (hc : Bit.Alike c d) :
    Matched (G.xor a c) (G.xor b d) Bit.Alike := by
  apply (G.fit_matched .xor ha hc).bind
  intro p q both
  apply (Matched.count (0, 1, 0, 0) fun _ => rfl).bind
  intro _ _ _
  exact G.eval_matched _ _ (congrArg₂ (G.noise.growth .xor) both.1 both.2)

theorem matched_keeps : G.Keeps (fun _ _ m m' T => Matched m m' T) Bit.Alike :=
  ⟨Matched.compositional, G.and_matched, G.xor_matched⟩

end Gates

end CipherMachine
