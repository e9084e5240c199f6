import CipherMachine.Gates
import Mathlib.Data.List.Forall2

set_option autoImplicit false

/-!
What computations on encrypted bits answer, from whatever session they are run.

`GateM.Yields dry m P` says that `m` answers with a result that satisfies `P`, or runs out of
randomness in a state that `dry` allows. No other fault is possible. The rules below follow the
structure of programs, so an operation's law is assembled from those of the operations it calls.
-/

namespace CipherMachine

/-- The answer satisfies `P`, or the error `E`. -/
def Outcome {ε α : Type} (E : ε → Prop) (P : α → Prop) : Except ε α → Prop
  | .ok a => P a
  | .error e => E e

namespace Outcome

variable {ε η α β : Type} {E : ε → Prop} {P Q : α → Prop} {x : Except ε α}

theorem imp {D : ε → Prop} (outcome : Outcome E P x) (errors : ∀ e, E e → D e)
    (answers : ∀ a, P a → Q a) : Outcome D Q x := by
  cases x with
  | ok a => exact answers a outcome
  | error e => exact errors e outcome

theorem mono (outcome : Outcome E P x) (weaker : ∀ a, P a → Q a) : Outcome E Q x :=
  outcome.imp (fun _ => id) weaker

theorem any (holds : ∀ a, P a) : Outcome (fun _ => True) P x := by
  cases x with
  | ok a => exact holds a
  | error e => trivial

theorem and (outcome : Outcome E P x) (also : Outcome (fun _ => True) Q x) :
    Outcome E (fun a => P a ∧ Q a) x := by
  cases x with
  | ok a => exact ⟨outcome, also⟩
  | error e => exact outcome

theorem bind {f : α → Except ε β} {R : β → Prop} (outcome : Outcome E P x)
    (next : ∀ a, P a → Outcome E R (f a)) : Outcome E R (x >>= f) := by
  cases x with
  | ok a => exact next a outcome
  | error e => exact outcome

theorem mapError {f : ε → η} {D : η → Prop} (outcome : Outcome E P x)
    (holds : ∀ e, E e → D (f e)) : Outcome D P (x.mapError f) := by
  cases x with
  | ok a => exact outcome
  | error e => exact holds e outcome

theorem map {f : α → β} {R : β → Prop} (outcome : Outcome E (fun a => R (f a)) x) :
    Outcome E R (x.map f) := by
  cases x with
  | ok a => exact outcome
  | error e => exact outcome

theorem of_map {f : α → β} {R : β → Prop} (outcome : Outcome E R (x.map f)) :
    Outcome E (fun a => R (f a)) x := by
  cases x with
  | ok a => exact outcome
  | error e => exact outcome

/-- Errors that cannot occur leave an answer. -/
theorem answer (outcome : Outcome E P x) (never : ∀ e, ¬ E e) : ∃ a, x = .ok a ∧ P a := by
  cases x with
  | ok a => exact ⟨a, rfl, outcome⟩
  | error e => exact absurd outcome (never e)

/-- Properties that exclude each other, and that one error and one answer have, tell the outcome. -/
theorem determines (outcome : Outcome E P x) (apart : ∀ e a, E e → ¬ P a)
    (errors : ∀ e d, E e → E d → e = d) (answers : ∀ a b, P a → P b → a = b) :
    (∀ e, x = .error e ↔ E e) ∧ ∀ a, x = .ok a ↔ P a := by
  cases x with
  | ok b =>
      constructor
      · intro e
        exact ⟨nofun, fun failed => absurd outcome (apart e b failed)⟩
      · intro a
        constructor
        · intro same
          cases same
          exact outcome
        · intro holds
          rw [answers a b holds outcome]
  | error d =>
      constructor
      · intro e
        constructor
        · intro same
          cases same
          exact outcome
        · intro failed
          rw [errors e d failed outcome]
      · intro a
        exact ⟨nofun, fun holds => absurd holds (apart d a outcome)⟩

end Outcome

/-- The fault of a scheme that has run out of randomness, which `dry` allows. -/
def Exhausted (dry : Prop) (fault : Fault) : Prop := fault = .exhausted ∧ dry

namespace GateM

variable {S α β γ : Type}

theorem exec_bind (m : GateM S α) (f : α → GateM S β) (s : Session S) :
    (m >>= f).exec s =
      match m.exec s with
      | (.ok a, t) => (f a).exec t
      | (.error fault, t) => (.error fault, t) := by
  rcases result : m.exec s with ⟨answer, t⟩
  have run : m s = (answer, t) := result
  change StateT.bind m (ExceptT.bindCont f) s = _
  unfold StateT.bind
  rw [run]
  cases answer <;> rfl

/-- A sequence that answers has answered in both of its parts. -/
theorem exec_bind_ok {m : GateM S α} {f : α → GateM S β} {s u : Session S} {b : β}
    (answer : (m >>= f).exec s = (.ok b, u)) :
    ∃ a t, m.exec s = (.ok a, t) ∧ (f a).exec t = (.ok b, u) := by
  rw [exec_bind] at answer
  rcases result : m.exec s with ⟨_ | a, t⟩
  · rw [result] at answer
    cases answer
  · rw [result] at answer
    exact ⟨a, t, rfl, answer⟩

theorem exec_call {C : Type} (operation : S → Option (C × S)) (s : Session S) :
    (call operation).exec s =
      match operation s.state with
      | some (cipher, state) => (.ok cipher, { s with state := state })
      | none => (.error .exhausted, s) := by
  have answer : (get : GateM S (Session S)).exec s = (.ok s, s) := rfl
  unfold call
  rw [exec_bind, answer]
  dsimp only
  cases operation s.state with
  | none => rfl
  | some result => rfl

/-- A call of a scheme gives a ciphertext that satisfies `P`, or gives none and `dry` holds. -/
def Gives {C : Type} (dry : Prop) (P : C → Prop) : Option (C × S) → Prop
  | some (cipher, _) => P cipher
  | none => dry

theorem Gives.map {C T : Type} {dry : Prop} {P : C → Prop} {answer : Option (C × S)}
    (gives : Gives dry P answer) (f : S → T) :
    Gives dry P (answer.map fun (cipher, state) => (cipher, f state)) := by
  cases answer with
  | none => exact gives
  | some _ => exact gives

/-- The answer is one that satisfies `P`, or randomness has run out in a state that satisfies
`dry`. -/
def Yields (dry : S → Prop) (m : GateM S α) (P : α → Prop) : Prop :=
  ∀ s, Outcome (Exhausted (dry (m.exec s).2.state)) P (m.exec s).1

namespace Yields

variable {dry : S → Prop} {m : GateM S α} {P Q : α → Prop}

theorem pure {a : α} (holds : P a) : Yields dry (Pure.pure a : GateM S α) P :=
  fun _ => holds

theorem mono (yields : Yields dry m P) (weaker : ∀ a, P a → Q a) : Yields dry m Q :=
  fun s => (yields s).mono weaker

theorem forget (yields : Yields dry m P) : Yields dry m fun _ => True :=
  yields.mono fun _ _ => trivial

/-- Where randomness never runs out there is an answer. -/
theorem answer (yields : Yields (fun _ => False) m P) (s : Session S) :
    ∃ a t, m.exec s = (.ok a, t) ∧ P a := by
  obtain ⟨a, answer, holds⟩ := (yields s).answer fun _ failed => failed.2
  exact ⟨a, (m.exec s).2, Prod.ext answer rfl, holds⟩

theorem bind {f : α → GateM S β} {R : β → Prop} (first : Yields dry m P)
    (next : ∀ a, P a → Yields dry (f a) R) : Yields dry (m >>= f) R := by
  intro s
  have result := first s
  rw [exec_bind]
  rcases h : m.exec s with ⟨answer, t⟩
  rw [h] at result
  cases answer with
  | ok a => exact next a result t
  | error fault => exact result

theorem map {f : α → β} {R : β → Prop} (yields : Yields dry m P) (holds : ∀ a, P a → R (f a)) :
    Yields dry (f <$> m) R := by
  rw [map_eq_pure_bind]
  exact yields.bind fun a answer => pure (holds a answer)

/-- A call of the scheme, whose state the answer may depend on. -/
theorem call {C : Type} {operation : S → Option (C × S)} {P : C → Prop}
    (law : ∀ s, Gives (dry s) P (operation s)) :
    Yields dry (GateM.call operation) P := by
  intro s
  have result := law s.state
  rw [exec_call]
  cases h : operation s.state with
  | none =>
      rw [h] at result
      exact ⟨rfl, result⟩
  | some answer =>
      rw [h] at result
      exact result

theorem count (f : GateStats → GateStats) : Yields dry (GateM.count (S := S) f) fun _ => True :=
  fun _ => trivial

theorem lift {x : Except Fault α} {a : α} (answer : x = .ok a) (holds : P a) :
    Yields dry (liftM x : GateM S α) P := by
  subst answer
  exact fun _ => holds

theorem guarded {guard : Prop} [Decidable guard] {fault : Fault} {next : Unit → GateM S α}
    (passes : ¬ guard) (yields : Yields dry (next ()) P) :
    Yields dry (if guard then (throw fault : GateM S Unit) >>= next else next ()) P := by
  rw [if_neg passes]
  exact yields

theorem mapM {f : α → GateM S β} {R : α → γ → Prop} {T : β → γ → Prop}
    {as : List α} {cs : List γ} (inputs : List.Forall₂ R as cs)
    (step : ∀ a c, R a c → Yields dry (f a) (T · c)) :
    Yields dry (as.mapM f) (List.Forall₂ T · cs) := by
  induction inputs with
  | nil =>
      rw [List.mapM_nil]
      exact pure .nil
  | @cons a c as cs head _ ih =>
      rw [List.mapM_cons]
      refine (step a c head).bind fun b first => ?_
      refine ih.bind fun bs rest => ?_
      exact pure (.cons first rest)

theorem mapM_mem {f : α → GateM S β} {T : β → α → Prop} {as : List α}
    (step : ∀ a ∈ as, Yields dry (f a) (T · a)) :
    Yields dry (as.mapM f) (List.Forall₂ T · as) := by
  apply mapM (R := fun a c => a = c ∧ c ∈ as)
  · rw [List.forall₂_same]
    exact fun a member => ⟨rfl, member⟩
  · rintro a _ ⟨rfl, member⟩
    exact step a member

theorem metered (yields : Yields dry m P) :
    Yields dry (GateM.metered m) (fun answer => P answer.1) := by
  have counters : Yields dry (stats (S := S)) fun _ => True := fun _ => trivial
  refine counters.bind fun before _ => ?_
  refine yields.bind fun a answer => ?_
  exact counters.bind fun after _ => pure answer

end Yields

/-- The computation answers as `x` does: with a result that `T` relates to that of `x`, or with
the fault of `x`, or it runs out of randomness in a state that satisfies `dry`. -/
def Follows (dry : S → Prop) (m : GateM S α) (x : Except Fault β) (T : α → β → Prop) : Prop :=
  ∀ s, Outcome (fun fault => Exhausted (dry (m.exec s).2.state) fault ∨ x = .error fault)
    (fun a => ∃ b, x = .ok b ∧ T a b) (m.exec s).1

namespace Follows

variable {δ : Type} {dry : S → Prop} {m : GateM S α} {x : Except Fault β} {T : α → β → Prop}

theorem ofYields {b : β} (yields : Yields dry m (T · b)) : Follows dry m (.ok b) T :=
  fun s => (yields s).imp (fun _ => .inl) fun _ holds => ⟨b, rfl, holds⟩

theorem throw (fault : Fault) : Follows dry (throw fault : GateM S α) (.error fault) T :=
  fun _ => .inr rfl

theorem bind {f : α → GateM S γ} {g : β → Except Fault δ} {U : γ → δ → Prop}
    (first : Follows dry m x T) (next : ∀ a b, T a b → Follows dry (f a) (g b) U) :
    Follows dry (m >>= f) (x >>= g) U := by
  intro s
  have result := first s
  rw [exec_bind]
  rcases h : m.exec s with ⟨answer, t⟩
  rw [h] at result
  cases answer with
  | ok a =>
      obtain ⟨b, rfl, holds⟩ := result
      exact next a b holds t
  | error fault =>
      rcases result with exhausted | rfl
      · exact .inl exhausted
      · exact .inr rfl

theorem mapM {ρ : Type} {f : α → GateM S γ} {g : β → Except Fault ρ} {R : α → β → Prop}
    {U : γ → ρ → Prop} {as : List α} {bs : List β} (inputs : List.Forall₂ R as bs)
    (step : ∀ a b, R a b → Follows dry (f a) (g b) U) :
    Follows dry (as.mapM f) (bs.mapM g) (List.Forall₂ U) := by
  induction inputs with
  | nil => exact ofYields (.pure .nil)
  | @cons a b as bs head _ ih =>
      rw [List.mapM_cons, List.mapM_cons]
      refine (step a b head).bind fun c r first => ?_
      refine ih.bind fun cs rs rest => ?_
      exact ofYields (.pure (.cons first rest))

end Follows

end GateM

end CipherMachine
