import CipherMachine.Gates.Selection
import CipherMachine.Proofs.Gates.Word

set_option autoImplicit false

/-!
Relations between two computations that run side by side.

A relation is compositional if it respects results, faults and sequencing. It then respects loops,
and if gates keep it on related bits, reductions and selections keep it too.
-/

namespace CipherMachine

/-- What relates two computations, for every relation of their results. -/
abbrev GateM.Judgement (S : Type) : Type 1 :=
  ∀ ⦃α β : Type⦄, GateM S α → GateM S β → (α → β → Prop) → Prop

structure GateM.Compositional {S : Type} (L : Judgement S) : Prop where
  pure : ∀ {α β : Type} {P : α → β → Prop} {a : α} {b : β}, P a b → L (pure a) (pure b) P
  throw : ∀ {α β : Type} {P : α → β → Prop} (fault : Fault),
    L (throw fault : GateM S α) (throw fault : GateM S β) P
  bind : ∀ {α β γ δ : Type} {P : α → β → Prop} {T : γ → δ → Prop} {m : GateM S α}
    {m' : GateM S β} {f : α → GateM S γ} {g : β → GateM S δ},
    L m m' P → (∀ a b, P a b → L (f a) (g b) T) → L (m >>= f) (m' >>= g) T

namespace GateM.Compositional

variable {S α β γ δ : Type} {L : Judgement S} {P : α → β → Prop} {T : γ → δ → Prop}

theorem map (rules : Compositional L) {m : GateM S α} {m' : GateM S β} {f : α → γ} {g : β → δ}
    (related : L m m' P) (holds : ∀ a b, P a b → T (f a) (g b)) : L (f <$> m) (g <$> m') T := by
  rw [map_eq_pure_bind, map_eq_pure_bind]
  exact rules.bind related fun a b both => rules.pure (holds a b both)

theorem guarded (rules : Compositional L) {guard guard' : Prop} [Decidable guard]
    [Decidable guard'] {fault : Fault} {f : Unit → GateM S α} {g : Unit → GateM S β}
    (same : guard ↔ guard') (next : L (f ()) (g ()) P) :
    L (if guard then (MonadExcept.throw fault : GateM S Unit) >>= f else f ())
      (if guard' then (MonadExcept.throw fault : GateM S Unit) >>= g else g ()) P := by
  by_cases holds : guard
  · rw [if_pos holds, if_pos (same.mp holds)]
    exact rules.throw fault
  · rw [if_neg holds, if_neg (fun holds' => holds (same.mpr holds'))]
    exact next

theorem lift (rules : Compositional L) {x : Except Fault α} {y : Except Fault β}
    (same : (∃ a b, x = .ok a ∧ y = .ok b ∧ P a b) ∨ ∃ fault, x = .error fault ∧ y = .error fault) :
    L (liftM x : GateM S α) (liftM y : GateM S β) P := by
  rcases same with ⟨a, b, rfl, rfl, holds⟩ | ⟨fault, rfl, rfl⟩
  · exact rules.pure holds
  · exact rules.throw fault

theorem mapM (rules : Compositional L) {f : α → GateM S γ} {g : β → GateM S δ} {as : List α}
    {bs : List β} (inputs : List.Forall₂ P as bs) (step : ∀ a b, P a b → L (f a) (g b) T) :
    L (as.mapM f) (bs.mapM g) (List.Forall₂ T) := by
  induction inputs with
  | nil => exact rules.pure .nil
  | @cons a b as bs head _ ih =>
      rw [List.mapM_cons, List.mapM_cons]
      apply rules.bind (step a b head)
      intro c d first
      exact rules.bind ih fun cs ds rest => rules.pure (.cons first rest)

theorem loop (rules : Compositional L) {as : List α} {f : α → GateM S γ} {g : α → GateM S δ}
    (step : ∀ a, L (f a) (g a) T) : L (as.mapM f) (as.mapM g) (List.Forall₂ T) :=
  rules.mapM (P := Eq) (List.forall₂_same.mpr fun _ _ => rfl) fun a _ same => same ▸ step a

section

variable {R : α → α → Prop} {combine : α → α → GateM S α} {as bs : List α}

theorem pairwise (rules : Compositional L)
    (law : ∀ {a b c d}, R a b → R c d → L (combine a c) (combine b d) R)
    (related : List.Forall₂ R as bs) :
    L (pairwise combine as) (pairwise combine bs) (List.Forall₂ R) := by
  induction as using pairwise.induct generalizing bs with
  | case1 first second rest ih =>
      obtain _ | ⟨hfirst, _ | ⟨hsecond, tail⟩⟩ := related
      apply rules.bind (law hfirst hsecond)
      intro _ _ head
      exact rules.bind (ih tail) fun _ _ rest => rules.pure (.cons head rest)
  | case2 last =>
      obtain _ | ⟨hlast, _ | _⟩ := related
      exact rules.pure (.cons hlast .nil)
  | case3 =>
      obtain _ | _ := related
      exact rules.pure .nil

theorem passes (rules : Compositional L)
    (law : ∀ {a b c d}, R a b → R c d → L (combine a c) (combine b d) R) (n : Nat)
    (related : List.Forall₂ R as bs) :
    L (passes combine n as) (passes combine n bs) (List.Forall₂ R) := by
  induction n generalizing as bs with
  | zero => exact rules.pure related
  | succ n ih => exact rules.bind (rules.pairwise law related) fun _ _ layer => ih layer

end

section

variable {C : Type} {R : Bit C → Bit C → Prop}

theorem reduce (rules : Compositional L) {combine : Bit C → Bit C → GateM S (Bit C)}
    (law : ∀ {a b c d}, R a b → R c d → L (combine a c) (combine b d) R) {as bs : List (Bit C)}
    (related : List.Forall₂ R as bs) :
    L (Gates.reduce combine as) (Gates.reduce combine bs) R := by
  cases related with
  | nil => exact rules.throw .emptyReduction
  | cons head tail =>
      unfold Gates.reduce
      dsimp only
      rw [tail.length_eq]
      apply rules.bind (rules.passes law _ (.cons head tail))
      intro _ _ top
      apply rules.pure
      cases top with
      | nil => exact head
      | cons last _ => exact last

theorem bit (rules : Compositional L) {v w : Word C} (related : List.Forall₂ R v.bits w.bits)
    (i : Nat) : L (liftM (v.bit i) : GateM S (Bit C)) (liftM (w.bit i)) R := by
  apply rules.lift
  unfold Word.bit
  obtain ⟨a, b, left, right, both⟩ | ⟨left, right⟩ := forall₂_getElem? related i
  · rw [left, right]
    exact .inl ⟨a, b, rfl, rfl, both⟩
  · rw [left, right]
    exact .inr ⟨_, rfl, rfl⟩

end

end GateM.Compositional

open GateM

variable {C S : Type} {L : Judgement S} {R : Bit C → Bit C → Prop} {G : Gates C S}

/-- Conjunctions and sums of related bits are related. -/
structure Gates.Keeps (G : Gates C S) (L : Judgement S) (R : Bit C → Bit C → Prop) : Prop where
  rules : Compositional L
  and : ∀ {a b c d}, R a b → R c d → L (G.and a c) (G.and b d) R
  xor : ∀ {a b c d}, R a b → R c d → L (G.xor a c) (G.xor b d) R

namespace Gates.Keeps

variable {a b c d e f : Bit C} {v w v' w' : Word C}

theorem xorAll (keeps : G.Keeps L R) {as bs : List (Bit C)} (related : List.Forall₂ R as bs) :
    L (G.xorAll as) (G.xorAll bs) R :=
  keeps.rules.reduce keeps.xor related

theorem select (keeps : G.Keeps L R) (hs : R a b) (hc : R c d) (he : R e f) :
    L (G.select a c e) (G.select b d f) R := by
  apply keeps.rules.bind (keeps.xor hc he)
  intro _ _ difference
  apply keeps.rules.bind (keeps.and hs difference)
  intro _ _ masked
  exact keeps.xor he masked

theorem selectWord (keeps : G.Keeps L R) (hs : R a b) (hv : List.Forall₂ R v.bits w.bits)
    (hv' : List.Forall₂ R v'.bits w'.bits) :
    L (G.selectWord a v v') (G.selectWord b w w') fun x y => List.Forall₂ R x.bits y.bits := by
  have width : v.width = w.width := hv.length_eq
  have width' : v'.width = w'.width := hv'.length_eq
  unfold Gates.selectWord
  apply keeps.rules.guarded
  · rw [width, width']
  · have pairs := keeps.rules.mapM (forall₂_zip hv hv')
      fun _ _ both => keeps.select hs both.1 both.2
    exact keeps.rules.bind pairs fun _ _ bits => keeps.rules.pure bits

end Gates.Keeps

end CipherMachine
