import CipherMachine.Proofs.Circuit

set_option autoImplicit false

/-!
Direct calls of a scheme, without estimates, counters or planned refreshes.

A sequence of calls grows a list of ciphertexts. A call names its operands by their places in the
list and adds its result at the end, so one sequence can be run on any scheme. A scheme mirrors
another if single calls on related operands give related results; then sequences do.
-/

namespace CipherMachine

section

variable {C D : Type}

/-- The gate on the results that its operands name. -/
def Gate.operands (results : List C) : Gate Nat → Except Fault (Gate C)
  | .and a b => do return .and (← operand results a) (← operand results b)
  | .xor a b => do return .xor (← operand results a) (← operand results b)
  | .not a => do return .not (← operand results a)

def Gate.map (f : C → D) : Gate C → Gate D
  | .and a b => .and (f a) (f b)
  | .xor a b => .xor (f a) (f b)
  | .not a => .not (f a)

def Gate.inputs : Gate C → List C
  | .and a b => [a, b]
  | .xor a b => [a, b]
  | .not a => [a]

inductive Gate.Related (R : C → D → Prop) : Gate C → Gate D → Prop
  | and {a b : C} {c d : D} : R a c → R b d → Related R (.and a b) (.and c d)
  | xor {a b : C} {c d : D} : R a c → R b d → Related R (.xor a b) (.xor c d)
  | not {a : C} {c : D} : R a c → Related R (.not a) (.not c)

end

/-- A call of a scheme's operation, with the places of its operands among earlier results. -/
inductive SchemeCall where
  | encrypt (bit : Bool)
  | eval (gate : Gate Nat)
  | refresh (place : Nat)

namespace SchemeCall

variable {C S : Type}

/-- What an operation of the scheme gives, if it finds randomness. -/
def drawn {α : Type} : Option α → Except Fault α
  | some answer => .ok answer
  | none => .error .exhausted

def run (scheme : Scheme C S) (results : List C) (s : S) : SchemeCall → Except Fault (C × S)
  | encrypt bit => drawn (scheme.encrypt bit s)
  | eval gate => do return scheme.eval (← gate.operands results) s
  | refresh place => do drawn (scheme.refresh (← operand results place) s)

/-- Makes a sequence of calls after those that gave the results. -/
def runAll (scheme : Scheme C S) : List SchemeCall → List C → S → Except Fault (List C × S)
  | [], results, s => .ok (results, s)
  | call :: rest, results, s => do
    let (result, s) ← call.run scheme results s
    runAll scheme rest (results ++ [result]) s

end SchemeCall

/-- `x` answers as `y` does: with a result that `P` relates to that of `y`, or with the fault of
`y`, or it runs out of randomness, which `dry` allows. -/
def AnswersAs {α β : Type} (dry : Prop) (P : α → β → Prop) (x : Except Fault α)
    (y : Except Fault β) : Prop :=
  Outcome (fun fault => Exhausted dry fault ∨ y = .error fault) (fun a => ∃ b, y = .ok b ∧ P a b) x

namespace AnswersAs

variable {α β γ δ : Type} {dry : Prop} {P : α → β → Prop} {x : Except Fault α} {y : Except Fault β}

theorem ok {a : α} {b : β} (related : P a b) : AnswersAs dry P (.ok a) (.ok b) := ⟨b, rfl, related⟩

theorem error (fault : Fault) : AnswersAs dry P (.error fault) (.error fault) := .inr rfl

theorem bind {f : α → Except Fault γ} {g : β → Except Fault δ} {T : γ → δ → Prop}
    (first : AnswersAs dry P x y) (next : ∀ a b, P a b → AnswersAs dry T (f a) (g b)) :
    AnswersAs dry T (x >>= f) (y >>= g) := by
  cases x with
  | ok a =>
      obtain ⟨b, rfl, related⟩ := first
      exact next a b related
  | error fault =>
      rcases first with exhausted | rfl
      · exact .inl exhausted
      · exact .inr rfl

/-- Answers that are computed from others follow them. -/
theorem drawn_map (answer : Option α) {f : α → β} (related : ∀ a, P a (f a)) :
    AnswersAs dry P (SchemeCall.drawn answer) (SchemeCall.drawn (answer.map f)) := by
  cases answer with
  | none => exact error .exhausted
  | some a => exact ok (related a)

/-- What never runs out of randomness may be looked through. -/
theorem trans {z : Except Fault γ} {T : β → γ → Prop} (first : AnswersAs False P x y)
    (second : AnswersAs dry T y z) :
    AnswersAs dry (fun a c => ∃ b, y = .ok b ∧ P a b ∧ T b c) x z := by
  cases x with
  | ok a =>
      obtain ⟨b, rfl, left⟩ := first
      obtain ⟨c, answer, right⟩ := second
      exact ⟨c, answer, b, rfl, left, right⟩
  | error fault =>
      rcases first with ⟨_, never⟩ | rfl
      · exact never.elim
      · exact second

theorem mono {Q : α → β → Prop} (answers : AnswersAs dry P x y)
    (weaker : ∀ a b, P a b → Q a b) : AnswersAs dry Q x y :=
  Outcome.mono answers fun a ⟨b, answer, related⟩ => ⟨b, answer, weaker a b related⟩

end AnswersAs

variable {C D S T : Type}

/-- Single calls of `A` on related operands, from related states, answer as those of `B` do. -/
structure Scheme.Mirrors (A : Scheme C S) (B : Scheme D T) (R : C → D → Prop) (Q : S → T → Prop)
    (dry : Prop) : Prop where
  encrypt : ∀ bit {s t}, Q s t → AnswersAs dry (fun a b => R a.1 b.1 ∧ Q a.2 b.2)
    (SchemeCall.drawn (A.encrypt bit s)) (SchemeCall.drawn (B.encrypt bit t))
  eval : ∀ {g : Gate C} {h : Gate D}, g.Related R h → ∀ {s t}, Q s t →
    R (A.eval g s).1 (B.eval h t).1 ∧ Q (A.eval g s).2 (B.eval h t).2
  refresh : ∀ {c d}, R c d → ∀ {s t}, Q s t → AnswersAs dry (fun a b => R a.1 b.1 ∧ Q a.2 b.2)
    (SchemeCall.drawn (A.refresh c s)) (SchemeCall.drawn (B.refresh d t))

namespace Scheme.Mirrors

variable {A : Scheme C S} {B : Scheme D T} {R : C → D → Prop} {Q : S → T → Prop} {dry : Prop}
  {cs : List C} {ds : List D} {s : S} {t : T}

theorem operand (results : List.Forall₂ R cs ds) (place : Nat) :
    AnswersAs dry R (CipherMachine.operand cs place) (CipherMachine.operand ds place) := by
  unfold CipherMachine.operand
  obtain ⟨c, d, left, right, related⟩ | ⟨left, right⟩ := forall₂_getElem? results place
  · rw [left, right]
    exact .ok related
  · rw [left, right]
    exact .error .outOfRange

theorem operands (results : List.Forall₂ R cs ds) (gate : Gate Nat) :
    AnswersAs dry (Gate.Related R) (gate.operands cs) (gate.operands ds) := by
  cases gate with
  | and a b =>
      exact (operand results a).bind fun _ _ ha =>
        (operand results b).bind fun _ _ hb => .ok (.and ha hb)
  | xor a b =>
      exact (operand results a).bind fun _ _ ha =>
        (operand results b).bind fun _ _ hb => .ok (.xor ha hb)
  | not a => exact (operand results a).bind fun _ _ ha => .ok (.not ha)

theorem run (mirrors : A.Mirrors B R Q dry) (results : List.Forall₂ R cs ds) (states : Q s t)
    (call : SchemeCall) :
    AnswersAs dry (fun a b => R a.1 b.1 ∧ Q a.2 b.2) (call.run A cs s) (call.run B ds t) := by
  cases call with
  | encrypt bit => exact mirrors.encrypt bit states
  | eval gate =>
      exact (operands results gate).bind fun _ _ related => .ok (mirrors.eval related states)
  | refresh place =>
      exact (operand results place).bind fun _ _ related => mirrors.refresh related states

theorem runAll (mirrors : A.Mirrors B R Q dry) (calls : List SchemeCall)
    (results : List.Forall₂ R cs ds) (states : Q s t) :
    AnswersAs dry (fun a b => List.Forall₂ R a.1 b.1 ∧ Q a.2 b.2) (SchemeCall.runAll A calls cs s)
      (SchemeCall.runAll B calls ds t) := by
  induction calls generalizing cs ds s t with
  | nil => exact .ok ⟨results, states⟩
  | cons call rest ih =>
      refine (mirrors.run results states call).bind fun a b ⟨related, states⟩ => ?_
      exact ih (List.rel_append results (.cons related .nil)) states

end Scheme.Mirrors

end CipherMachine
