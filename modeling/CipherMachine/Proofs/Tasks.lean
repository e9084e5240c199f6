import CipherMachine.Proofs.Gates.Arithmetic
import CipherMachine.Proofs.Gates.Leads
import CipherMachine.Proofs.Gates.Pattern
import CipherMachine.Proofs.Gates.Selection
import CipherMachine.Proofs.Gates.Word

set_option autoImplicit false

/-!
Tasks: operations of the gates, with the bits and words that they are given.

`Task.misuse` says which arguments an operation refuses. A refused task leaves the session as it
was, and any other task answers unless randomness runs out. A script carries out one task after
another and goes on after a refused one. What every task keeps holds wherever a script comes to.
-/

namespace CipherMachine

open GateM

namespace GateM

variable {S α : Type}

/-- The computation faults and leaves every session as it was. -/
def Refuses (fault : Fault) (m : GateM S α) : Prop := ∀ s, m.exec s = (.error fault, s)

theorem Refuses.guarded {guard : Prop} [Decidable guard] {fault : Fault}
    {next : Unit → GateM S α} (fails : guard) :
    Refuses fault
      (if guard then (MonadExcept.throw fault : GateM S Unit) >>= next else next ()) := by
  rw [if_pos fails]
  exact fun _ => rfl

end GateM

inductive Task (C : Type) : Type → Type
  | stats : Task C GateStats
  | encrypt (bit : Bool) : Task C (Bit C)
  | encryptWord (value width : Nat) : Task C (Word C)
  | decrypt (bit : Bit C) : Task C Bool
  | decryptBits (word : Word C) : Task C (List Bool)
  | decryptWord (word : Word C) : Task C Nat
  | refresh (bit : Bit C) : Task C (Bit C)
  | not (input : Bit C) : Task C (Bit C)
  | and (left right : Bit C) : Task C (Bit C)
  | xor (left right : Bit C) : Task C (Bit C)
  | or (left right : Bit C) : Task C (Bit C)
  | andAll (bits : List (Bit C)) : Task C (Bit C)
  | orAll (bits : List (Bit C)) : Task C (Bit C)
  | xorAll (bits : List (Bit C)) : Task C (Bit C)
  | select (selector chosen other : Bit C) : Task C (Bit C)
  | selectWord (selector : Bit C) (chosen other : Word C) : Task C (Word C)
  | mux (terms : List (Bit C × Word C)) : Task C (Word C)
  | matchPattern (bits : List (Bit C)) (pattern : Nat) : Task C (Bit C)
  | matchPatterns (bits : List (Bit C)) (patterns : List Nat) : Task C (List (Bit C))
  | add (left right : Word C) (carry : Bit C) : Task C (Word C × Bit C)
  | increment (word : Word C) : Task C (Word C)
  | isZero (word : Word C) : Task C (Bit C)
  | notWord (word : Word C) : Task C (Word C)
  | andWord (left right : Word C) : Task C (Word C)
  | xorWord (left right : Word C) : Task C (Word C)
  | orWord (left right : Word C) : Task C (Word C)
  | rotateLeft (word : Word C) (carry : Bit C) : Task C (Word C × Bit C)
  | rotateRight (word : Word C) (carry : Bit C) : Task C (Word C × Bit C)

namespace Task

variable {C S α : Type}

def run (G : Gates C S) : {α : Type} → Task C α → GateM S α
  | _, stats => GateM.stats
  | _, encrypt bit => G.encrypt bit
  | _, encryptWord value width => G.encryptWord value width
  | _, decrypt bit => return G.decrypt bit
  | _, decryptBits word => return G.decryptBits word
  | _, decryptWord word => liftM (G.decryptWord word)
  | _, refresh bit => G.refresh bit
  | _, not input => G.not input
  | _, and left right => G.and left right
  | _, xor left right => G.xor left right
  | _, or left right => G.or left right
  | _, andAll bits => G.andAll bits
  | _, orAll bits => G.orAll bits
  | _, xorAll bits => G.xorAll bits
  | _, select selector chosen other => G.select selector chosen other
  | _, selectWord selector chosen other => G.selectWord selector chosen other
  | _, mux terms => G.mux terms
  | _, matchPattern bits pattern => G.matchPattern bits pattern
  | _, matchPatterns bits patterns => G.matchPatterns bits patterns
  | _, add left right carry => G.add left right carry
  | _, increment word => G.increment word
  | _, isZero word => G.isZero word
  | _, notWord word => G.notWord word
  | _, andWord left right => G.andWord left right
  | _, xorWord left right => G.xorWord left right
  | _, orWord left right => G.orWord left right
  | _, rotateLeft word carry => return word.rotateLeft carry
  | _, rotateRight word carry => return word.rotateRight carry

def refusedIf (bad : Prop) [Decidable bad] (fault : Fault) : Option Fault :=
  if bad then some fault else none

def misuse : {α : Type} → Task C α → Option Fault
  | _, encryptWord _ width => refusedIf (64 < width) .wordTooWide
  | _, decryptWord word => refusedIf (64 < word.width) .wordTooWide
  | _, andAll bits => refusedIf (bits.length = 0) .emptyReduction
  | _, orAll bits => refusedIf (bits.length = 0) .emptyReduction
  | _, xorAll bits => refusedIf (bits.length = 0) .emptyReduction
  | _, selectWord _ chosen other => refusedIf (chosen.width ≠ other.width) .selectWidths
  | _, mux [] => some .noCandidate
  | _, mux (first :: rest) =>
    refusedIf (∃ term ∈ rest, term.2.width ≠ first.2.width) .candidateWidths
  | _, matchPattern bits _ =>
    (refusedIf (64 < bits.length) .patternTooWide).or
      (refusedIf (bits.length = 0) .emptyReduction)
  | _, matchPatterns bits patterns =>
    (refusedIf (64 < bits.length) .patternTooWide).or
      (refusedIf (bits.length = 0 ∧ patterns ≠ []) .emptyReduction)
  | _, add left right _ => refusedIf (left.width ≠ right.width) .additionWidths
  | _, isZero word => refusedIf (word.width = 0) .emptyReduction
  | _, andWord left right => refusedIf (left.width ≠ right.width) .operandWidths
  | _, xorWord left right => refusedIf (left.width ≠ right.width) .operandWidths
  | _, orWord left right => refusedIf (left.width ≠ right.width) .operandWidths
  | _, _ => none

def refreshes : {α : Type} → Task C α → Nat
  | _, refresh _ => 1
  | _, _ => 0

theorem refusedIf_eq_some_iff {bad : Prop} [Decidable bad] {fault fault' : Fault} :
    refusedIf bad fault = some fault' ↔ bad ∧ fault = fault' := by
  unfold refusedIf
  split <;> simp [*]

theorem refusedIf_eq_none_iff {bad : Prop} [Decidable bad] {fault : Fault} :
    refusedIf bad fault = none ↔ ¬ bad := by
  unfold refusedIf
  split <;> simp [*]

theorem zipWord_refuses (combine : Bit C → Bit C → GateM S (Bit C)) {left right : Word C}
    (differ : left.width ≠ right.width) :
    (Gates.zipWord combine left right).Refuses .operandWidths := by
  unfold Gates.zipWord
  apply Refuses.guarded
  exact differ

theorem refuses_of_misuse (G : Gates C S) (task : Task C α) {fault : Fault}
    (refused : task.misuse = some fault) : (task.run G).Refuses fault := by
  cases task with
  | encryptWord value width =>
      obtain ⟨wide, rfl⟩ := refusedIf_eq_some_iff.mp refused
      rw [run, Gates.encryptWord]
      apply Refuses.guarded
      exact wide
  | decryptWord word =>
      obtain ⟨wide, rfl⟩ := refusedIf_eq_some_iff.mp refused
      have answer : G.decryptWord word = .error .wordTooWide := if_neg (Nat.not_le.mpr wide)
      rw [run, answer]
      exact fun _ => rfl
  | andAll bits | orAll bits | xorAll bits =>
      obtain ⟨empty, rfl⟩ := refusedIf_eq_some_iff.mp refused
      obtain rfl := List.eq_nil_of_length_eq_zero empty
      exact fun _ => rfl
  | selectWord selector chosen other =>
      obtain ⟨differ, rfl⟩ := refusedIf_eq_some_iff.mp refused
      rw [run, Gates.selectWord]
      apply Refuses.guarded
      exact differ
  | mux terms =>
      cases terms with
      | nil =>
          obtain rfl := Option.some.inj refused
          exact fun _ => rfl
      | cons first rest =>
          obtain ⟨⟨term, member, differ⟩, rfl⟩ := refusedIf_eq_some_iff.mp refused
          rw [run, Gates.mux]
          apply Refuses.guarded
          have later := List.mem_cons_of_mem first member
          exact List.any_eq_true.mpr ⟨term, later, bne_iff_ne.mpr differ⟩
  | matchPattern bits pattern =>
      rcases Option.or_eq_some_iff.mp refused with tooWide | ⟨-, noBits⟩
      · obtain ⟨wide, rfl⟩ := refusedIf_eq_some_iff.mp tooWide
        rw [run, Gates.matchPattern]
        apply Refuses.guarded
        exact wide
      · obtain ⟨empty, rfl⟩ := refusedIf_eq_some_iff.mp noBits
        obtain rfl := List.eq_nil_of_length_eq_zero empty
        exact fun _ => rfl
  | matchPatterns bits patterns =>
      rcases Option.or_eq_some_iff.mp refused with tooWide | ⟨-, noBits⟩
      · obtain ⟨wide, rfl⟩ := refusedIf_eq_some_iff.mp tooWide
        rw [run, Gates.matchPatterns]
        apply Refuses.guarded
        exact wide
      · obtain ⟨⟨empty, some_pattern⟩, rfl⟩ := refusedIf_eq_some_iff.mp noBits
        obtain rfl := List.eq_nil_of_length_eq_zero empty
        obtain ⟨pattern, others, rfl⟩ := List.exists_cons_of_ne_nil some_pattern
        exact fun _ => rfl
  | add left right carry =>
      obtain ⟨differ, rfl⟩ := refusedIf_eq_some_iff.mp refused
      rw [run, Gates.add]
      apply Refuses.guarded
      exact differ
  | isZero word =>
      obtain ⟨empty, rfl⟩ := refusedIf_eq_some_iff.mp refused
      obtain ⟨bits⟩ := word
      obtain rfl := List.eq_nil_of_length_eq_zero empty
      exact fun _ => rfl
  | andWord left right | xorWord left right | orWord left right =>
      obtain ⟨differ, rfl⟩ := refusedIf_eq_some_iff.mp refused
      exact zipWord_refuses _ differ
  | _ => cases refused

/-- Any other task answers unless randomness runs out. -/
theorem yields_of_misuse (G : Gates C S) (task : Task C α) (accepted : task.misuse = none) :
    (task.run G).Yields G.scheme.Dry fun _ => True := by
  have hom := G.homomorphic_anyBit
  have any (bit : Bit C) : anyBit bit false := trivial
  have holds (word : Word C) {width : Nat} (same : word.width = width) :
      word.Holds anyBit width 0 := Word.holds_anyBit_iff.mpr same
  have read (bits : List (Bit C)) : List.Forall₂ anyBit bits (binaryDigits bits.length 0) :=
    holds ⟨bits⟩ rfl
  have nonempty {bits : List (Bit C)} (positive : ¬ bits.length = 0) :
      binaryDigits bits.length 0 ≠ [] := by
    intro empty
    rw [← length_binaryDigits bits.length 0, empty] at positive
    exact positive rfl
  cases task with
  | stats => exact fun _ => trivial
  | encrypt bit => exact (hom.encrypt bit).forget
  | encryptWord value width =>
      have narrow := Nat.not_lt.mp (refusedIf_eq_none_iff.mp accepted)
      exact (hom.encryptWord value narrow).forget
  | decrypt bit | decryptBits word | rotateLeft word carry | rotateRight word carry =>
      exact .pure trivial
  | decryptWord word =>
      have narrow := Nat.not_lt.mp (refusedIf_eq_none_iff.mp accepted)
      exact .lift (if_pos narrow) trivial
  | refresh bit => exact (hom.refresh (any bit)).forget
  | not input => exact (hom.not (any input)).forget
  | and left right => exact (hom.and (any left) (any right)).forget
  | xor left right => exact (hom.xor (any left) (any right)).forget
  | or left right => exact (hom.or (any left) (any right)).forget
  | andAll bits =>
      have some_bit := nonempty (refusedIf_eq_none_iff.mp accepted)
      exact (hom.andAll (read bits) some_bit).forget
  | orAll bits =>
      have some_bit := nonempty (refusedIf_eq_none_iff.mp accepted)
      exact (hom.orAll (read bits) some_bit).forget
  | xorAll bits =>
      have some_bit := nonempty (refusedIf_eq_none_iff.mp accepted)
      exact (hom.xorAll (read bits) some_bit).forget
  | select selector chosen other =>
      exact (hom.select (any selector) (any chosen) (any other)).forget
  | selectWord selector chosen other =>
      have same := not_not.mp (refusedIf_eq_none_iff.mp accepted)
      exact (hom.selectWord (any selector) (holds chosen same) (holds other rfl)).forget
  | mux terms =>
      cases terms with
      | nil => cases accepted
      | cons first rest =>
          have same := refusedIf_eq_none_iff.mp accepted
          simp only [not_exists, not_and, not_not] at same
          have widths : ∀ term ∈ first :: rest, term.2.width = first.2.width :=
            List.forall_mem_cons.mpr ⟨rfl, same⟩
          have terms : List.Forall₂ (fun term value =>
              anyBit term.1 value.1 ∧ term.2.Holds anyBit first.2.width value.2)
              (first :: rest) ((first :: rest).map fun _ => (false, 0)) := by
            rw [List.forall₂_map_right_iff, List.forall₂_same]
            exact fun term member => ⟨any term.1, holds term.2 (widths term member)⟩
          exact (hom.mux (List.cons_ne_nil _ _) terms).forget
  | matchPattern bits pattern =>
      obtain ⟨narrow, positive⟩ := Option.or_eq_none_iff.mp accepted
      have narrow := Nat.not_lt.mp (refusedIf_eq_none_iff.mp narrow)
      have positive := Nat.pos_of_ne_zero (refusedIf_eq_none_iff.mp positive)
      exact (hom.matchPattern (read bits) positive narrow pattern).forget
  | matchPatterns bits patterns =>
      obtain ⟨narrow, positive⟩ := Option.or_eq_none_iff.mp accepted
      have narrow := Nat.not_lt.mp (refusedIf_eq_none_iff.mp narrow)
      have positive := refusedIf_eq_none_iff.mp positive
      by_cases empty : bits.length = 0
      · obtain rfl := List.eq_nil_of_length_eq_zero empty
        obtain rfl : patterns = [] := by simpa using positive
        exact fun _ => trivial
      · exact (hom.matchPatterns (read bits) (Nat.pos_of_ne_zero empty) narrow patterns).forget
  | add left right carry =>
      have same := not_not.mp (refusedIf_eq_none_iff.mp accepted)
      exact (hom.add (holds left same) (holds right rfl) (any carry)).forget
  | increment word => exact (hom.increment (holds word rfl)).forget
  | isZero word =>
      have positive := Nat.pos_of_ne_zero (refusedIf_eq_none_iff.mp accepted)
      exact (hom.isZero (holds word rfl) positive).forget
  | notWord word => exact (hom.notWord (holds word rfl)).forget
  | andWord left right =>
      have same := not_not.mp (refusedIf_eq_none_iff.mp accepted)
      exact (hom.andWord (holds left same) (holds right rfl)).forget
  | xorWord left right =>
      have same := not_not.mp (refusedIf_eq_none_iff.mp accepted)
      exact (hom.xorWord (holds left same) (holds right rfl)).forget
  | orWord left right =>
      have same := not_not.mp (refusedIf_eq_none_iff.mp accepted)
      exact (hom.orWord (holds left same) (holds right rfl)).forget

/-- What encryptions and gates lead to, every task leads to, unless it asks for a refresh. -/
theorem leads {G : Gates C S} {R : Session S → Session S → Prop} (gates : G.Leads R)
    (task : Task C α) (refresh : task.refreshes = 0 ∨ ∀ a, Leads R (G.refresh a)) :
    Leads R (task.run G) := by
  cases task with
  | stats => exact gates.onward.stats
  | encrypt bit => exact gates.encrypt bit
  | encryptWord value width => exact gates.encryptWord value width
  | decrypt bit | decryptBits word | rotateLeft word carry | rotateRight word carry =>
      exact gates.onward.pure
  | decryptWord word => exact gates.onward.lift _
  | refresh bit =>
      rcases refresh with none | every
      · cases none
      · exact every bit
  | not input => exact gates.not input
  | and left right => exact gates.and left right
  | xor left right => exact gates.xor left right
  | or left right => exact gates.or left right
  | andAll bits => exact gates.onward.reduce gates.and bits
  | orAll bits => exact gates.onward.reduce gates.or bits
  | xorAll bits => exact gates.onward.reduce gates.xor bits
  | select selector chosen other => exact gates.select selector chosen other
  | selectWord selector chosen other => exact gates.selectWord selector chosen other
  | mux terms => exact gates.mux terms
  | matchPattern bits pattern => exact gates.matchPattern bits pattern
  | matchPatterns bits patterns => exact gates.matchPatterns bits patterns
  | add left right carry => exact gates.add left right carry
  | increment word => exact gates.increment word
  | isZero word => exact gates.isZero word
  | notWord word => exact gates.notWord word
  | andWord left right => exact gates.zipWord gates.and left right
  | xorWord left right => exact gates.zipWord gates.xor left right
  | orWord left right => exact gates.zipWord gates.or left right

end Task

/-- A program of tasks. What comes after a task may depend on its answer, or on its fault. -/
inductive Script (C : Type) : Type 1
  | done
  | task {α : Type} (first : Task C α) (next : Except Fault α → Script C)

namespace Script

variable {C S : Type}

/-- The sessions that a script comes to, each with the number of refreshes asked for so far. Nothing
follows a task that runs out of randomness. -/
def points (G : Gates C S) : Script C → Nat → Session S → List (Nat × Session S)
  | done, asked, s => [(asked, s)]
  | task first next, asked, s =>
    (asked, s) ::
      match (first.run G).exec s with
      | (.error .exhausted, _) => []
      | (answer, t) => points G (next answer) (asked + first.refreshes) t

/-- What every task keeps holds wherever a script comes to. -/
theorem holds_points {G : Gates C S} {I : Nat → Session S → Prop}
    (step : ∀ {α : Type} (first : Task C α) {asked s}, I asked s →
      ((first.run G).exec s).1 = .error .exhausted ∨
        I (asked + first.refreshes) ((first.run G).exec s).2)
    (script : Script C) (asked : Nat) {s : Session S} (start : I asked s) :
    ∀ point ∈ script.points G asked s, I point.1 point.2 := by
  induction script generalizing asked s with
  | done =>
      rw [points, List.forall_mem_singleton]
      exact start
  | task first next ih =>
      have kept := step first start
      rw [points, List.forall_mem_cons]
      refine ⟨start, ?_⟩
      split
      · exact List.forall_mem_nil _
      · rename_i answer t going result
        rw [result] at kept
        rcases kept with rfl | kept
        · exact (going rfl).elim
        · exact ih answer _ kept

end Script

end CipherMachine
