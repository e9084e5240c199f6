import CipherMachine.Gates.Arithmetic
import CipherMachine.Gates.Selection
import CipherMachine.Proofs.Lockstep.Basic

set_option autoImplicit false

/-!
Operations on bits and words that are alike run in lockstep: they look at widths only.
-/

namespace CipherMachine

open GateM

variable {C S : Type} {G : Gates C S} {Q : Session S → Session S → Prop}
  {combine : Bit C → Bit C → GateM S (Bit C)} {a b c d e f : Bit C}
  {as bs : List (Bit C)} {v w v' w' : Word C}

def InStep₂ (Q : Session S → Session S → Prop) (combine : Bit C → Bit C → GateM S (Bit C)) :
    Prop :=
  ∀ {a b c d}, Bit.Alike a b → Bit.Alike c d → Lockstep Q (combine a c) (combine b d) Bit.Alike

namespace Gates.InStep

theorem or (step : G.InStep Q) (ha : Bit.Alike a b) (hc : Bit.Alike c d) :
    Lockstep Q (G.or a c) (G.or b d) Bit.Alike := by
  refine (step.xor ha hc).bind fun _ _ sum => ?_
  refine (step.and ha hc).bind fun _ _ carry => ?_
  exact step.xor sum carry

theorem andAll (step : G.InStep Q) (alike : List.Forall₂ Bit.Alike as bs) :
    Lockstep Q (G.andAll as) (G.andAll bs) Bit.Alike :=
  Lockstep.compositional.reduce step.and alike

theorem orAll (step : G.InStep Q) (alike : List.Forall₂ Bit.Alike as bs) :
    Lockstep Q (G.orAll as) (G.orAll bs) Bit.Alike :=
  Lockstep.compositional.reduce step.or alike

theorem xorAll (step : G.InStep Q) (alike : List.Forall₂ Bit.Alike as bs) :
    Lockstep Q (G.xorAll as) (G.xorAll bs) Bit.Alike :=
  Lockstep.compositional.reduce step.xor alike

theorem selectWord (step : G.InStep Q) (hs : Bit.Alike a b) (hv : v.Alike w)
    (hv' : v'.Alike w') :
    Lockstep Q (G.selectWord a v v') (G.selectWord b w w') Word.Alike :=
  step.keeps.selectWord hs hv hv'

def Terms (terms terms' : List (Bit C × Word C)) : Prop :=
  List.Forall₂ (fun t t' => Bit.Alike t.1 t'.1 ∧ t.2.Alike t'.2) terms terms'

theorem mux (step : G.InStep Q) {terms terms' : List (Bit C × Word C)}
    (alike : Terms terms terms') : Lockstep Q (G.mux terms) (G.mux terms') Word.Alike := by
  cases alike with
  | nil => exact .throw .noCandidate
  | @cons t t' terms terms' head tail =>
      unfold Gates.mux
      have width : t.2.width = t'.2.width := head.2.width_eq
      have all : Terms (t :: terms) (t' :: terms') := .cons head tail
      apply Lockstep.compositional.guarded
      · rw [width, any_width_eq (all.imp fun _ _ both => both.2.width_eq)]
      · dsimp only
        rw [width]
        refine (Lockstep.compositional.loop fun i => ?_).bind fun _ _ bits => .pure bits
        refine (Lockstep.compositional.mapM all ?_).bind fun _ _ masked => step.xorAll masked
        rintro ⟨s, word⟩ ⟨s', word'⟩ ⟨hs, hw⟩
        exact (hw.bit i).bind fun _ _ bit => step.and hs bit

/-- Negations that stand at the same places and are alike. -/
def Negations (negated negated' : List (Option (Bit C))) : Prop :=
  List.Forall₂ (Option.Rel Bit.Alike) negated negated'

theorem negations (step : G.InStep Q) (patterns : List Nat) (i : Nat)
    (alike : List.Forall₂ Bit.Alike as bs) :
    Lockstep Q (G.negations patterns i as) (G.negations patterns i bs) Negations := by
  induction alike generalizing i with
  | nil => exact .pure .nil
  | @cons a b as bs head _ ih =>
      have rest : ∀ negated negated', Option.Rel Bit.Alike negated negated' → Lockstep Q (do
          let others ← G.negations patterns (i + 1) as
          return negated :: others) (do
          let others ← G.negations patterns (i + 1) bs
          return negated' :: others) Negations := fun _ _ first =>
        (ih (i + 1)).bind fun _ _ others => .pure (.cons first others)
      rw [Gates.negations, Gates.negations]
      split
      · exact (Lockstep.compositional.map (step.not head) fun _ _ => .some).bind rest
      · exact rest none none .none

theorem literals {negated negated' : List (Option (Bit C))} (pattern i : Nat)
    (alike : List.Forall₂ Bit.Alike as bs) (hn : Negations negated negated') :
    List.Forall₂ Bit.Alike (literals pattern i as negated) (literals pattern i bs negated') := by
  induction alike generalizing i negated negated' with
  | nil => exact .nil
  | cons head _ ih =>
      cases hn with
      | nil => exact .nil
      | cons first rest =>
          refine .cons ?_ (ih (i + 1) rest)
          split
          · exact head
          · cases first with
            | some both => exact both
            | none => exact head

theorem matchPatterns (step : G.InStep Q) (patterns : List Nat)
    (alike : List.Forall₂ Bit.Alike as bs) :
    Lockstep Q (G.matchPatterns as patterns) (G.matchPatterns bs patterns)
      (List.Forall₂ Bit.Alike) := by
  unfold Gates.matchPatterns
  apply Lockstep.compositional.guarded
  · rw [alike.length_eq]
  · refine (step.negations patterns 0 alike).bind fun _ _ negated => ?_
    exact Lockstep.compositional.loop fun pattern => step.andAll (literals pattern 0 alike negated)

def Digits (answer answer' : List (Bit C) × Bit C) : Prop :=
  List.Forall₂ Bit.Alike answer.1 answer'.1 ∧ Bit.Alike answer.2 answer'.2

theorem ripple (step : G.InStep Q) {pairs pairs' : List (Bit C × Bit C)}
    (alike : List.Forall₂ (fun p q => Bit.Alike p.1 q.1 ∧ Bit.Alike p.2 q.2) pairs pairs')
    (carry : Bit.Alike a b) : Lockstep Q (G.ripple pairs a) (G.ripple pairs' b) Digits := by
  induction alike generalizing a b with
  | nil => exact .pure ⟨.nil, carry⟩
  | cons head _ ih =>
      refine (step.xor head.1 head.2).bind fun _ _ half => ?_
      refine (step.xor half carry).bind fun _ _ digit => ?_
      refine (step.and head.1 head.2).bind fun _ _ generated => ?_
      refine (step.and half carry).bind fun _ _ propagated => ?_
      refine (step.xor generated propagated).bind fun _ _ next => ?_
      exact (ih next).bind fun _ _ rest => .pure ⟨.cons digit rest.1, rest.2⟩

def Sum (answer answer' : Word C × Bit C) : Prop :=
  answer.1.Alike answer'.1 ∧ Bit.Alike answer.2 answer'.2

theorem add (step : G.InStep Q) (hv : v.Alike w) (hv' : v'.Alike w') (carry : Bit.Alike a b) :
    Lockstep Q (G.add v v' a) (G.add w w' b) Sum := by
  unfold Gates.add
  apply Lockstep.compositional.guarded
  · rw [hv.width_eq, hv'.width_eq]
  · exact (step.ripple (forall₂_zip hv hv') carry).bind fun _ _ answer => .pure answer

theorem propagate (step : G.InStep Q) (alike : List.Forall₂ Bit.Alike as bs)
    (carry : Bit.Alike a b) :
    Lockstep Q (G.propagate a as) (G.propagate b bs) (List.Forall₂ Bit.Alike) := by
  induction alike generalizing a b with
  | nil => exact .pure .nil
  | cons head tail ih =>
      cases tail with
      | nil => exact (step.xor head carry).bind fun _ _ digit => .pure (.cons digit .nil)
      | cons second rest =>
          refine (step.xor head carry).bind fun _ _ digit => ?_
          refine (step.and head carry).bind fun _ _ next => ?_
          exact (ih next).bind fun _ _ digits => .pure (.cons digit digits)

theorem increment (step : G.InStep Q) (alike : v.Alike w) :
    Lockstep Q (G.increment v) (G.increment w) Word.Alike := by
  obtain ⟨bits⟩ := v
  obtain ⟨bits'⟩ := w
  cases alike with
  | nil => exact .pure .nil
  | cons first rest =>
      refine (step.not first).bind fun _ _ low => ?_
      exact (step.propagate rest first).bind fun _ _ digits => .pure (.cons low digits)

theorem isZero (step : G.InStep Q) (alike : v.Alike w) :
    Lockstep Q (G.isZero v) (G.isZero w) Bit.Alike :=
  (step.orAll alike).bind fun _ _ any => step.not any

theorem notWord (step : G.InStep Q) (alike : v.Alike w) :
    Lockstep Q (G.notWord v) (G.notWord w) Word.Alike :=
  (Lockstep.compositional.mapM alike fun _ _ => step.not).bind fun _ _ bits => .pure bits

end Gates.InStep

theorem zipWord_lockstep (step : InStep₂ Q combine) (hv : v.Alike w) (hv' : v'.Alike w') :
    Lockstep Q (Gates.zipWord combine v v') (Gates.zipWord combine w w') Word.Alike := by
  unfold Gates.zipWord
  apply Lockstep.compositional.guarded
  · rw [hv.width_eq, hv'.width_eq]
  · refine (Lockstep.compositional.mapM (forall₂_zip hv hv') ?_).bind fun _ _ bits => .pure bits
    exact fun _ _ both => step both.1 both.2

end CipherMachine
