import CipherMachine.Gates.Arithmetic
import CipherMachine.Gates.Selection
import CipherMachine.Proofs.Outcome

set_option autoImplicit false

/-!
Where computations on encrypted bits lead.

`GateM.Leads R m` says that `m` leads from any session to one that `R` relates to it, also if it
faults, but not if it runs out of randomness: such a computation ends in the middle of a gate. If
`R` is a preorder, what holds of encryptions and of the three gates holds of every operation that
is made of them.
-/

namespace CipherMachine

namespace GateM

variable {S α β : Type} {R : Session S → Session S → Prop}

def Leads (R : Session S → Session S → Prop) (m : GateM S α) : Prop :=
  ∀ s, (m.exec s).1 = .error .exhausted ∨ R s (m.exec s).2

/-- A relation of sessions that staying and going on twice keep. -/
structure Onward (R : Session S → Session S → Prop) : Prop where
  refl : ∀ s, R s s
  trans : ∀ {s t u}, R s t → R t u → R s u

namespace Onward

variable (onward : Onward R)
include onward

theorem pure {a : α} : Leads R (Pure.pure a : GateM S α) := fun s => .inr (onward.refl s)

theorem throw (fault : Fault) : Leads R (MonadExcept.throw fault : GateM S α) :=
  fun s => .inr (onward.refl s)

theorem stats : Leads R (stats (S := S)) := fun s => .inr (onward.refl s)

theorem lift (x : Except Fault α) : Leads R (liftM x : GateM S α) := by
  cases x with
  | ok a => exact onward.pure
  | error fault => exact onward.throw fault

theorem bind {m : GateM S α} {f : α → GateM S β} (first : Leads R m)
    (next : ∀ a, Leads R (f a)) : Leads R (m >>= f) := by
  intro s
  have start := first s
  rw [exec_bind]
  rcases result : m.exec s with ⟨answer, t⟩
  rw [result] at start
  cases answer with
  | error _ => exact start.imp_left fun never => by cases never; rfl
  | ok a =>
      rcases start with never | there
      · cases never
      · exact (next a t).imp_right (onward.trans there)

theorem map {m : GateM S α} (f : α → β) (leads : Leads R m) : Leads R (f <$> m) := by
  rw [map_eq_pure_bind]
  exact onward.bind leads fun a => onward.pure

theorem guarded {guard : Prop} [Decidable guard] {fault : Fault} {next : Unit → GateM S α}
    (passes : Leads R (next ())) :
    Leads R (if guard then (MonadExcept.throw fault : GateM S Unit) >>= next else next ()) := by
  by_cases fails : guard
  · rw [if_pos fails]
    exact onward.throw fault
  · rw [if_neg fails]
    exact passes

theorem mapM {f : α → GateM S β} (step : ∀ a, Leads R (f a)) (as : List α) :
    Leads R (as.mapM f) := by
  induction as with
  | nil => exact onward.pure
  | cons a as ih =>
      rw [List.mapM_cons]
      refine onward.bind (step a) fun b => ?_
      exact onward.bind ih fun bs => onward.pure

theorem foldlM {f : β → α → GateM S β} (step : ∀ b a, Leads R (f b a)) (as : List α) (b : β) :
    Leads R (as.foldlM f b) := by
  induction as generalizing b with
  | nil => exact onward.pure
  | cons a as ih => exact onward.bind (step b a) ih

section

variable {combine : α → α → GateM S α} (law : ∀ a b, Leads R (combine a b))
include law

theorem pairwise (as : List α) : Leads R (pairwise combine as) := by
  induction as using pairwise.induct with
  | case1 first second rest ih =>
      refine onward.bind (law first second) fun head => ?_
      exact onward.bind ih fun tail => onward.pure
  | case2 last => exact onward.pure
  | case3 => exact onward.pure

theorem passes (n : Nat) (as : List α) : Leads R (passes combine n as) := by
  induction n generalizing as with
  | zero => exact onward.pure
  | succ n ih => exact onward.bind (onward.pairwise law as) ih

end

theorem reduce {C : Type} {combine : Bit C → Bit C → GateM S (Bit C)}
    (law : ∀ a b, Leads R (combine a b)) (bits : List (Bit C)) :
    Leads R (Gates.reduce combine bits) := by
  cases bits with
  | nil => exact onward.throw .emptyReduction
  | cons first rest =>
      exact onward.bind (onward.passes law _ _) fun top => onward.pure

end Onward

end GateM

open GateM

variable {C S : Type} {G : Gates C S} {R : Session S → Session S → Prop}

structure Gates.Leads (G : Gates C S) (R : Session S → Session S → Prop) : Prop where
  onward : Onward R
  encrypt : ∀ x, GateM.Leads R (G.encrypt x)
  not : ∀ a, GateM.Leads R (G.not a)
  and : ∀ a b, GateM.Leads R (G.and a b)
  xor : ∀ a b, GateM.Leads R (G.xor a b)

namespace Gates.Leads

variable (leads : G.Leads R)
include leads

theorem encryptWord (value width : Nat) : GateM.Leads R (G.encryptWord value width) := by
  apply leads.onward.guarded
  refine leads.onward.bind (leads.onward.mapM (fun i => leads.encrypt _) _) fun bits => ?_
  exact leads.onward.pure

theorem or (a b : Bit C) : GateM.Leads R (G.or a b) := by
  refine leads.onward.bind (leads.xor a b) fun sum => ?_
  exact leads.onward.bind (leads.and a b) fun carry => leads.xor sum carry

theorem select (selector chosen other : Bit C) :
    GateM.Leads R (G.select selector chosen other) := by
  refine leads.onward.bind (leads.xor chosen other) fun difference => ?_
  exact leads.onward.bind (leads.and selector difference) fun masked => leads.xor other masked

theorem selectWord (selector : Bit C) (chosen other : Word C) :
    GateM.Leads R (G.selectWord selector chosen other) := by
  apply leads.onward.guarded
  refine leads.onward.bind (leads.onward.mapM (fun p => ?_) _) fun bits => leads.onward.pure
  exact leads.select selector p.1 p.2

theorem mux (terms : List (Bit C × Word C)) : GateM.Leads R (G.mux terms) := by
  cases terms with
  | nil => exact leads.onward.throw .noCandidate
  | cons first rest =>
      apply leads.onward.guarded
      refine leads.onward.bind (leads.onward.mapM (fun i => ?_) _) fun bits =>
        leads.onward.pure
      refine leads.onward.bind (leads.onward.mapM (fun term => ?_) _) fun masked =>
        leads.onward.reduce leads.xor masked
      exact leads.onward.bind (leads.onward.lift _) fun bit => leads.and term.1 bit

theorem negations (patterns : List Nat) (i : Nat) (bits : List (Bit C)) :
    GateM.Leads R (G.negations patterns i bits) := by
  induction bits generalizing i with
  | nil => exact leads.onward.pure
  | cons bit rest ih =>
      rw [Gates.negations]
      have others : ∀ negated, GateM.Leads R (do
          let others ← G.negations patterns (i + 1) rest
          return negated :: others) :=
        fun negated => leads.onward.bind (ih (i + 1)) fun others => leads.onward.pure
      split
      · exact leads.onward.bind (leads.onward.map some (leads.not bit)) others
      · exact leads.onward.bind leads.onward.pure others

theorem matchPatterns (bits : List (Bit C)) (patterns : List Nat) :
    GateM.Leads R (G.matchPatterns bits patterns) := by
  apply leads.onward.guarded
  refine leads.onward.bind (leads.negations patterns 0 bits) fun negated => ?_
  exact leads.onward.mapM (fun pattern => leads.onward.reduce leads.and _) patterns

theorem matchPattern (bits : List (Bit C)) (pattern : Nat) :
    GateM.Leads R (G.matchPattern bits pattern) := by
  apply leads.onward.guarded
  exact leads.onward.bind (leads.negations [pattern] 0 bits) fun negated =>
    leads.onward.reduce leads.and _

theorem ripple (pairs : List (Bit C × Bit C)) (carry : Bit C) :
    GateM.Leads R (G.ripple pairs carry) := by
  induction pairs generalizing carry with
  | nil => exact leads.onward.pure
  | cons pair rest ih =>
      refine leads.onward.bind (leads.xor pair.1 pair.2) fun half => ?_
      refine leads.onward.bind (leads.xor half carry) fun digit => ?_
      refine leads.onward.bind (leads.and pair.1 pair.2) fun generated => ?_
      refine leads.onward.bind (leads.and half carry) fun propagated => ?_
      refine leads.onward.bind (leads.xor generated propagated) fun next => ?_
      exact leads.onward.bind (ih next) fun sum => leads.onward.pure

theorem add (left right : Word C) (carry : Bit C) : GateM.Leads R (G.add left right carry) := by
  apply leads.onward.guarded
  exact leads.onward.bind (leads.ripple _ carry) fun sum => leads.onward.pure

theorem propagate (carry : Bit C) (bits : List (Bit C)) :
    GateM.Leads R (G.propagate carry bits) := by
  induction bits generalizing carry with
  | nil => exact leads.onward.pure
  | cons bit rest ih =>
      cases rest with
      | nil => exact leads.onward.bind (leads.xor bit carry) fun digit => leads.onward.pure
      | cons second rest =>
          refine leads.onward.bind (leads.xor bit carry) fun digit => ?_
          refine leads.onward.bind (leads.and bit carry) fun next => ?_
          exact leads.onward.bind (ih next) fun digits => leads.onward.pure

theorem increment (word : Word C) : GateM.Leads R (G.increment word) := by
  obtain ⟨bits⟩ := word
  cases bits with
  | nil => exact leads.onward.pure
  | cons first rest =>
      refine leads.onward.bind (leads.not first) fun low => ?_
      exact leads.onward.bind (leads.propagate first rest) fun digits =>
        leads.onward.pure

theorem isZero (word : Word C) : GateM.Leads R (G.isZero word) :=
  leads.onward.bind (leads.onward.reduce leads.or word.bits) leads.not

theorem notWord (word : Word C) : GateM.Leads R (G.notWord word) :=
  leads.onward.bind (leads.onward.mapM leads.not word.bits) fun _ => leads.onward.pure

theorem zipWord {combine : Bit C → Bit C → GateM S (Bit C)}
    (law : ∀ a b, GateM.Leads R (combine a b)) (left right : Word C) :
    GateM.Leads R (zipWord combine left right) := by
  apply leads.onward.guarded
  refine leads.onward.bind (leads.onward.mapM (fun p => ?_) _) fun _ => leads.onward.pure
  exact law p.1 p.2

end Gates.Leads

end CipherMachine
