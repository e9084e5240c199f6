import CipherMachine.Proofs.Lockstep.Basic
import CipherMachine.Scheme.Recorded

set_option autoImplicit false

/-!
Schemes that treat all ciphertexts alike.

A scheme is uniform for a relation between states if calls of the same kind keep it, whatever
ciphertexts they are made on. Refreshes are scheduled by estimates alone, so the gates of a
uniform scheme are in step.
-/

namespace CipherMachine

open GateM

variable {C S : Type} {ρ : S → S → Prop} {scheme : Scheme C S}

/-- Both calls answer and leave related states, or neither answers. -/
def Paired (ρ : S → S → Prop) : Option (C × S) → Option (C × S) → Prop
  | some (_, s), some (_, t) => ρ s t
  | none, none => True
  | _, _ => False

/-- Gates of one kind and refreshes keep the relation, whatever their operands are. -/
structure Scheme.Uniform (scheme : Scheme C S) (ρ : S → S → Prop) : Prop where
  eval : ∀ {g h : Gate C} {s t}, g.kind = h.kind → ρ s t →
    ρ (scheme.eval g s).2 (scheme.eval h t).2
  refresh : ∀ c d {s t}, ρ s t → Paired ρ (scheme.refresh c s) (scheme.refresh d t)

/-- Encryptions keep the relation, whatever they encrypt. -/
def Scheme.UniformEncryption (scheme : Scheme C S) (ρ : S → S → Prop) : Prop :=
  ∀ x y {s t}, ρ s t → Paired ρ (scheme.encrypt x s) (scheme.encrypt y t)

def Session.Related (ρ : S → S → Prop) (s t : Session S) : Prop :=
  s.stats = t.stats ∧ ρ s.state t.state

theorem call_lockstep {operation operation' : S → Option (C × S)}
    (paired : ∀ {s t}, ρ s t → Paired ρ (operation s) (operation' t)) :
    Lockstep (Session.Related ρ) (GateM.call operation) (GateM.call operation')
      fun _ _ => True := by
  intro s t related
  have result := paired related.2
  rw [exec_call, exec_call]
  cases h : operation s.state with
  | none =>
      cases h' : operation' t.state with
      | none => exact ⟨rfl, related⟩
      | some _ =>
          rw [h, h'] at result
          exact result.elim
  | some _ =>
      cases h' : operation' t.state with
      | none =>
          rw [h, h'] at result
          exact result.elim
      | some _ =>
          rw [h, h'] at result
          exact ⟨trivial, related.1, result⟩

theorem count_lockstep (f : GateStats → GateStats) :
    Lockstep (Session.Related ρ) (GateM.count f) (GateM.count f) fun _ _ => True :=
  fun _ _ related => ⟨trivial, congrArg f related.1, related.2⟩

namespace Scheme.Uniform

variable {G : Gates C S} {a b c d : Bit C}

theorem refresh_lockstep (uniform : G.scheme.Uniform ρ) (a b : Bit C) :
    Lockstep (Session.Related ρ) (G.refresh a) (G.refresh b) Bit.Alike := by
  refine (count_lockstep _).bind fun _ _ _ => ?_
  exact (call_lockstep (uniform.refresh _ _)).bind fun _ _ _ => .pure rfl

theorem refreshSide_lockstep (uniform : G.scheme.Uniform ρ) (ha : Bit.Alike a b)
    (hc : Bit.Alike c d) (side : Side) :
    Lockstep (Session.Related ρ) (G.refreshSide (a, c) side) (G.refreshSide (b, d) side)
      fun p q => Bit.Alike p.1 q.1 ∧ Bit.Alike p.2 q.2 := by
  cases side with
  | left => exact (uniform.refresh_lockstep a b).bind fun _ _ fresh => .pure ⟨fresh, hc⟩
  | right => exact (uniform.refresh_lockstep c d).bind fun _ _ fresh => .pure ⟨ha, fresh⟩

/-- The plan is the same for operands that are alike. -/
theorem fit_lockstep (uniform : G.scheme.Uniform ρ) (kind : GateKind) (ha : Bit.Alike a b)
    (hc : Bit.Alike c d) :
    Lockstep (Session.Related ρ) (G.fit kind a c) (G.fit kind b d)
      fun p q => Bit.Alike p.1 q.1 ∧ Bit.Alike p.2 q.2 := by
  unfold Gates.fit
  rw [show a.noise = b.noise from ha, show c.noise = d.noise from hc]
  generalize G.noise.plan kind b.noise d.noise = plan
  induction plan generalizing a b c d with
  | nil => exact .pure ⟨ha, hc⟩
  | cons side rest ih =>
      rw [List.foldlM_cons, List.foldlM_cons]
      exact (uniform.refreshSide_lockstep ha hc side).bind fun _ _ both => ih both.1 both.2

theorem fitInput_lockstep (uniform : G.scheme.Uniform ρ) (ha : Bit.Alike a b) :
    Lockstep (Session.Related ρ) (G.fitInput a) (G.fitInput b) Bit.Alike := by
  unfold Gates.fitInput
  rw [show a.noise = b.noise from ha]
  split
  · exact uniform.refresh_lockstep a b
  · exact .pure ha

theorem eval_lockstep (uniform : G.scheme.Uniform ρ) {g h : Gate C} (kind : g.kind = h.kind)
    {n n' : Nat} (noise : n = n') :
    Lockstep (Session.Related ρ) (G.eval g n) (G.eval h n') Bit.Alike := by
  refine (call_lockstep fun related => ?_).bind fun _ _ _ => .pure noise
  exact uniform.eval kind related

theorem inStep (uniform : G.scheme.Uniform ρ) : G.InStep (Session.Related ρ) where
  not ha := by
    refine (uniform.fitInput_lockstep ha).bind fun _ _ both => ?_
    refine (count_lockstep _).bind fun _ _ _ => ?_
    exact uniform.eval_lockstep (by rfl) (congrArg (G.noise.growth .not · 0) both)
  and ha hc := by
    refine (uniform.fit_lockstep .and ha hc).bind fun _ _ both => ?_
    refine (count_lockstep _).bind fun _ _ _ => ?_
    exact uniform.eval_lockstep (by rfl) (congrArg₂ (G.noise.growth .and) both.1 both.2)
  xor ha hc := by
    refine (uniform.fit_lockstep .xor ha hc).bind fun _ _ both => ?_
    refine (count_lockstep _).bind fun _ _ _ => ?_
    exact uniform.eval_lockstep (by rfl) (congrArg₂ (G.noise.growth .xor) both.1 both.2)

end Scheme.Uniform

structure Scheme.Answers (scheme : Scheme C S) : Prop where
  encrypt : ∀ x s, scheme.encrypt x s ≠ none
  refresh : ∀ c s, scheme.refresh c s ≠ none

theorem paired_of_some {x y : Option (C × S)} (hx : x ≠ none) (hy : y ≠ none) :
    Paired (fun _ _ => True) x y := by
  cases x with
  | none => exact absurd rfl hx
  | some _ =>
      cases y with
      | none => exact absurd rfl hy
      | some _ => trivial

namespace Scheme.Answers

theorem uniform (answers : scheme.Answers) : scheme.Uniform fun _ _ => True where
  eval _ _ := trivial
  refresh c d _ _ _ := paired_of_some (answers.refresh c _) (answers.refresh d _)

theorem uniformEncryption (answers : scheme.Answers) :
    scheme.UniformEncryption fun _ _ => True :=
  fun x y _ _ _ => paired_of_some (answers.encrypt x _) (answers.encrypt y _)

end Scheme.Answers

namespace Recorded

/-- The calls made since an earlier record are gates and refreshes. -/
def OnlyEvaluates (base : List Call) (s : Recorded S) : Prop :=
  ∃ made, s.calls = made ++ base ∧ .encrypt ∉ made

theorem OnlyEvaluates.push {base : List Call} {s : Recorded S} (only : s.OnlyEvaluates base)
    {call : Call} (evaluates : call ≠ .encrypt) (inner : S) :
    OnlyEvaluates base ⟨inner, call :: s.calls⟩ := by
  obtain ⟨made, calls, absent⟩ := only
  refine ⟨call :: made, congrArg _ calls, ?_⟩
  rw [List.mem_cons, not_or]
  exact ⟨evaluates.symm, absent⟩

def Related (ρ : S → S → Prop) (s t : Recorded S) : Prop :=
  ρ s.inner t.inner ∧ s.calls = t.calls

def Evaluating (ρ : S → S → Prop) (base : List Call) (s t : Recorded S) : Prop :=
  Related ρ s t ∧ s.OnlyEvaluates base

end Recorded

theorem Paired.recorded {x y : Option (C × S)} (paired : Paired ρ x y) {calls : List Call}
    {σ : Recorded S → Recorded S → Prop} {call : Call}
    (keeps : ∀ {s t}, ρ s t → σ ⟨s, call :: calls⟩ ⟨t, call :: calls⟩) :
    Paired σ (x.map fun (cipher, inner) => (cipher, ⟨inner, call :: calls⟩))
      (y.map fun (cipher, inner) => (cipher, ⟨inner, call :: calls⟩)) := by
  cases x with
  | none =>
      cases y with
      | none => trivial
      | some _ => exact paired.elim
  | some _ =>
      cases y with
      | none => exact paired.elim
      | some _ => exact keeps paired

namespace Scheme

theorem Uniform.recorded (uniform : scheme.Uniform ρ) (base : List Call) :
    scheme.recorded.Uniform (Recorded.Evaluating ρ base) where
  eval := by
    rintro g h ⟨s, calls⟩ ⟨t, _⟩ kind ⟨⟨related, rfl⟩, only⟩
    have same : Call.gate g.kind :: calls = Call.gate h.kind :: calls := by rw [kind]
    refine ⟨⟨uniform.eval kind related, same⟩, ?_⟩
    exact only.push (fun same => by cases same) _
  refresh := by
    rintro c d ⟨s, calls⟩ ⟨t, _⟩ ⟨⟨related, rfl⟩, only⟩
    refine (uniform.refresh c d related).recorded fun related => ⟨⟨related, rfl⟩, ?_⟩
    exact only.push (fun same => by cases same) _

theorem UniformEncryption.recorded (uniform : scheme.UniformEncryption ρ) :
    scheme.recorded.UniformEncryption (Recorded.Related ρ) := by
  rintro x y ⟨s, calls⟩ ⟨t, _⟩ ⟨related, rfl⟩
  exact (uniform x y related).recorded fun related => ⟨related, rfl⟩

end Scheme

end CipherMachine
