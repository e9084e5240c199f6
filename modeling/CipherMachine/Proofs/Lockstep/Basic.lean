import CipherMachine.Proofs.Lockstep.Compositional
import CipherMachine.Proofs.Outcome

set_option autoImplicit false

/-!
Computations in lockstep.

`Lockstep Q m m' P` relates two computations that run side by side: from sessions that `Q` relates
both answer, with results that `P` relates, or both fault in the same way, and `Q` relates the
sessions that they leave. It is compositional.

Bits are alike if their estimates are the same, whatever they encrypt. Gates that are in step on
bits that are alike put every operation built from them in lockstep.
-/

namespace CipherMachine

open GateM

section

variable {S α β γ δ : Type}

/-- Both answer, with results that `P` relates, or both fail, with errors that `E` relates. -/
def Outcome₂ {ε ζ : Type} (E : ε → ζ → Prop) (P : α → β → Prop) : Except ε α → Except ζ β → Prop
  | .ok a, .ok b => P a b
  | .error e, .error f => E e f
  | _, _ => False

namespace Outcome₂

variable {ε ζ : Type} {E : ε → ζ → Prop} {P : α → β → Prop} {x : Except ε α} {y : Except ζ β}

theorem bind {f : α → Except ε γ} {g : β → Except ζ δ} {T : γ → δ → Prop}
    (outcome : Outcome₂ E P x y) (next : ∀ a b, P a b → Outcome₂ E T (f a) (g b)) :
    Outcome₂ E T (x >>= f) (y >>= g) := by
  cases x with
  | ok a =>
      cases y with
      | ok b => exact next a b outcome
      | error _ => exact outcome.elim
  | error e =>
      cases y with
      | ok _ => exact outcome.elim
      | error e' => exact outcome

theorem mapError {η θ : Type} {D : η → θ → Prop} {f : ε → η} {g : ζ → θ}
    (outcome : Outcome₂ E P x y) (holds : ∀ e e', E e e' → D (f e) (g e')) :
    Outcome₂ D P (x.mapError f) (y.mapError g) := by
  cases x with
  | ok a =>
      cases y with
      | ok b => exact outcome
      | error _ => exact outcome.elim
  | error e =>
      cases y with
      | ok _ => exact outcome.elim
      | error e' => exact holds e e' outcome

theorem map {f : α → γ} {g : β → δ} {T : γ → δ → Prop}
    (outcome : Outcome₂ E (fun a b => T (f a) (g b)) x y) : Outcome₂ E T (x.map f) (y.map g) := by
  cases x with
  | ok a =>
      cases y with
      | ok b => exact outcome
      | error _ => exact outcome.elim
  | error e =>
      cases y with
      | ok _ => exact outcome.elim
      | error e' => exact outcome

theorem mono {T : α → β → Prop} (outcome : Outcome₂ E P x y) (weaker : ∀ a b, P a b → T a b) :
    Outcome₂ E T x y := by
  cases x with
  | ok a =>
      cases y with
      | ok b => exact weaker a b outcome
      | error _ => exact outcome.elim
  | error e =>
      cases y with
      | ok _ => exact outcome.elim
      | error e' => exact outcome

theorem of_map {f : α → γ} {g : β → δ} {T : γ → δ → Prop}
    (outcome : Outcome₂ E T (x.map f) (y.map g)) : Outcome₂ E (fun a b => T (f a) (g b)) x y := by
  cases x with
  | ok a =>
      cases y with
      | ok b => exact outcome
      | error _ => exact outcome.elim
  | error e =>
      cases y with
      | ok _ => exact outcome.elim
      | error e' => exact outcome

theorem restrict {y : Except ε β} {D : ε → Prop} {Q : α → Prop} (outcome : Outcome₂ Eq P x y)
    (left : Outcome D Q x) : Outcome₂ (fun e e' => e = e' ∧ D e) P x y := by
  cases x with
  | ok a =>
      cases y with
      | ok b => exact outcome
      | error _ => exact outcome.elim
  | error e =>
      cases y with
      | ok _ => exact outcome.elim
      | error e' => exact ⟨outcome, left⟩

theorem answers {a : α} (outcome : Outcome₂ E P x y) (answer : x = .ok a) :
    ∃ b, y = .ok b ∧ P a b := by
  subst answer
  cases y with
  | ok b => exact ⟨b, rfl, outcome⟩
  | error _ => exact outcome.elim

theorem join {η : Type} {D : ε → η → Prop} {F : η → ζ → Prop} {Q : γ → β → Prop}
    {T : α → γ → Prop} {z : Except η γ} (first : Outcome₂ E P x y) (second : Outcome₂ F Q z y)
    (errors : ∀ e f g, E e g → F f g → D e f) (answers : ∀ a b c, P a c → Q b c → T a b) :
    Outcome₂ D T x z := by
  cases y with
  | ok c =>
      cases x with
      | ok a =>
          cases z with
          | ok b => exact answers a b c first second
          | error _ => exact second.elim
      | error _ => exact first.elim
  | error g =>
      cases x with
      | ok _ => exact first.elim
      | error e =>
          cases z with
          | ok _ => exact second.elim
          | error f => exact errors e f g first second

end Outcome₂

/-- Both answer or both fault alike, and leave related sessions. -/
def Agree (Q : Session S → Session S → Prop) (P : α → β → Prop) :
    Except Fault α × Session S → Except Fault β × Session S → Prop
  | (.ok a, s), (.ok b, t) => P a b ∧ Q s t
  | (.error e, s), (.error f, t) => e = f ∧ Q s t
  | _, _ => False

def Lockstep (Q : Session S → Session S → Prop) (m : GateM S α) (m' : GateM S β)
    (P : α → β → Prop) : Prop :=
  ∀ s t, Q s t → Agree Q P (m.exec s) (m'.exec t)

namespace Lockstep

variable {Q : Session S → Session S → Prop} {m : GateM S α} {m' : GateM S β} {P : α → β → Prop}

theorem pure {a : α} {b : β} (holds : P a b) :
    Lockstep Q (Pure.pure a : GateM S α) (Pure.pure b : GateM S β) P :=
  fun _ _ related => ⟨holds, related⟩

theorem throw (fault : Fault) :
    Lockstep Q (MonadExcept.throw fault : GateM S α) (MonadExcept.throw fault : GateM S β) P :=
  fun _ _ related => ⟨rfl, related⟩

theorem bind {f : α → GateM S γ} {g : β → GateM S δ} {T : γ → δ → Prop}
    (first : Lockstep Q m m' P) (next : ∀ a b, P a b → Lockstep Q (f a) (g b) T) :
    Lockstep Q (m >>= f) (m' >>= g) T := by
  intro s t related
  have result := first s t related
  rw [exec_bind, exec_bind]
  rcases h : m.exec s with ⟨answer, s'⟩
  rcases h' : m'.exec t with ⟨answer', t'⟩
  rw [h, h'] at result
  cases answer with
  | ok a =>
      cases answer' with
      | ok b => exact next a b result.1 s' t' result.2
      | error fault => exact result.elim
  | error fault =>
      cases answer' with
      | ok b => exact result.elim
      | error fault' => exact result

theorem compositional : Compositional fun _ _ m m' P => Lockstep (S := S) Q m m' P :=
  ⟨pure, throw, bind⟩

/-- Counters do not change what is counted. -/
theorem metered (lockstep : Lockstep Q m m' P) :
    Lockstep Q (GateM.metered m) (GateM.metered m') fun a b => P a.1 b.1 := by
  have counters : Lockstep Q stats stats fun _ _ => True :=
    fun _ _ related => ⟨trivial, related⟩
  refine counters.bind fun _ _ _ => ?_
  refine lockstep.bind fun _ _ holds => ?_
  exact counters.bind fun _ _ _ => pure holds

end Lockstep

end

variable {C S : Type}

def Bit.Alike (a b : Bit C) : Prop := a.noise = b.noise

def Word.Alike (v w : Word C) : Prop := List.Forall₂ Bit.Alike v.bits w.bits

def Word.noises (w : Word C) : List Nat := w.bits.map Bit.noise

theorem forall₂_map_eq_iff {α β : Type} (f : α → β) {as bs : List α} :
    List.Forall₂ (fun a b => f a = f b) as bs ↔ as.map f = bs.map f := by
  rw [← List.forall₂_eq_eq_eq, List.forall₂_map_left_iff, List.forall₂_map_right_iff]

theorem Word.alike_iff {v w : Word C} : v.Alike w ↔ v.noises = w.noises :=
  forall₂_map_eq_iff Bit.noise

namespace Word.Alike

variable {v w v' w' : Word C} {a b : Bit C} {Q : Session S → Session S → Prop}

theorem refl (w : Word C) : w.Alike w := List.forall₂_same.mpr fun _ _ => rfl

theorem width_eq (alike : v.Alike w) : v.width = w.width := alike.length_eq

theorem bit (alike : v.Alike w) (i : Nat) :
    Lockstep Q (liftM (v.bit i) : GateM S (Bit C)) (liftM (w.bit i)) Bit.Alike :=
  Lockstep.compositional.bit alike i

theorem slice (alike : v.Alike w) (first last : Nat) :
    Lockstep Q (liftM (v.slice first last) : GateM S (Word C)) (liftM (w.slice first last))
      Word.Alike := by
  apply Lockstep.compositional.lift
  unfold Word.slice
  rw [alike.width_eq]
  split
  · exact .inl ⟨_, _, rfl, rfl, List.forall₂_drop first (List.forall₂_take last alike)⟩
  · exact .inr ⟨_, rfl, rfl⟩

theorem withLowBits (alike : v.Alike w) (low : v'.Alike w') :
    Lockstep Q (liftM (v.withLowBits v') : GateM S (Word C)) (liftM (w.withLowBits w'))
      Word.Alike := by
  apply Lockstep.compositional.lift
  unfold Word.withLowBits
  rw [alike.width_eq, low.width_eq]
  split
  · exact .inl ⟨_, _, rfl, rfl, List.rel_append low (List.forall₂_drop _ alike)⟩
  · exact .inr ⟨_, rfl, rfl⟩

theorem rotateLeft (alike : v.Alike w) (carry : a.Alike b) :
    (v.rotateLeft a).1.Alike (w.rotateLeft b).1 ∧
      Bit.Alike (v.rotateLeft a).2 (w.rotateLeft b).2 := by
  obtain ⟨bits⟩ := v
  obtain ⟨bits'⟩ := w
  obtain rfl | ⟨rest, top, rfl⟩ := List.eq_nil_or_concat' bits
  · obtain rfl := List.forall₂_nil_left_iff.mp alike
    exact ⟨.nil, carry⟩
  · obtain rfl | ⟨rest', top', rfl⟩ := List.eq_nil_or_concat' bits'
    · have length := alike.length_eq
      simp at length
    · obtain ⟨hrest, htop⟩ := forall₂_concat_iff.mp alike
      unfold Word.rotateLeft
      rw [List.getLast?_concat, List.getLast?_concat, List.dropLast_concat, List.dropLast_concat]
      exact ⟨.cons carry hrest, htop⟩

theorem rotateRight (alike : v.Alike w) (carry : a.Alike b) :
    (v.rotateRight a).1.Alike (w.rotateRight b).1 ∧
      Bit.Alike (v.rotateRight a).2 (w.rotateRight b).2 := by
  obtain ⟨bits⟩ := v
  obtain ⟨bits'⟩ := w
  obtain _ | ⟨head, tail⟩ := alike
  · exact ⟨.nil, carry⟩
  · exact ⟨List.rel_append tail (.cons carry .nil), head⟩

end Word.Alike

/-- The gates treat bits that are alike in the same way. -/
structure Gates.InStep (G : Gates C S) (Q : Session S → Session S → Prop) : Prop where
  not : ∀ {a b}, Bit.Alike a b → Lockstep Q (G.not a) (G.not b) Bit.Alike
  and : ∀ {a b c d}, Bit.Alike a b → Bit.Alike c d →
    Lockstep Q (G.and a c) (G.and b d) Bit.Alike
  xor : ∀ {a b c d}, Bit.Alike a b → Bit.Alike c d →
    Lockstep Q (G.xor a c) (G.xor b d) Bit.Alike

theorem Gates.InStep.keeps {G : Gates C S} {Q : Session S → Session S → Prop}
    (step : G.InStep Q) : G.Keeps (fun _ _ m m' P => Lockstep Q m m' P) Bit.Alike :=
  ⟨Lockstep.compositional, step.and, step.xor⟩

end CipherMachine
