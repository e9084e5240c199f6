import CipherMachine.Gates.Selection
import CipherMachine.Proofs.Gates.Reduction
import CipherMachine.Proofs.Gates.Word

set_option autoImplicit false

/-!
Pattern matching compares numbers: a pattern matches a word if both agree modulo the word's
capacity. A negation that no pattern needs is never looked at.
-/

namespace CipherMachine

open GateM

private theorem all_agree (pattern i : Nat) (xs : List Bool) :
    ((xs.zipIdx i).map fun p => p.1 == pattern.testBit p.2).all id =
      decide (xs = (List.range' i xs.length).map pattern.testBit) := by
  induction xs generalizing i with
  | nil => rfl
  | cons x xs ih =>
      rw [List.zipIdx_cons, List.map_cons, List.all_cons, ih, List.length_cons, List.range'_succ,
        List.map_cons]
      simp only [id, List.cons.injEq, Bool.decide_and]
      congr 1

/-- All digits agree with the pattern if the numbers are the same modulo the capacity. -/
theorem all_agree_binaryDigits (pattern width n : Nat) :
    (((binaryDigits width n).zipIdx).map fun p => p.1 == pattern.testBit p.2).all id =
      decide (n % 2 ^ width = pattern % 2 ^ width) := by
  rw [all_agree, length_binaryDigits, ← List.range_eq_range']
  exact decide_eq_decide.mpr binaryDigits_inj

namespace Gates

variable {C S : Type} {G : Gates C S} {reads : Bit C → Bool → Prop} {dry : S → Prop}
  {bits : List (Bit C)} {xs : List Bool} {patterns : List Nat}

/-- The negation of a digit is there if some pattern needs it. -/
def Negated (reads : Bit C → Bool → Prop) (patterns : List Nat) (negation : Option (Bit C))
    (digit : Bool × Nat) : Prop :=
  (∃ pattern ∈ patterns, pattern.testBit digit.2 = false) →
    ∃ b, negation = some b ∧ reads b !digit.1

theorem negations_yields (hom : G.Homomorphic reads dry) (patterns : List Nat) (i : Nat)
    (read : List.Forall₂ reads bits xs) :
    (G.negations patterns i bits).Yields dry
      (List.Forall₂ (Negated reads patterns) · (xs.zipIdx i)) := by
  induction read generalizing i with
  | nil => exact .pure .nil
  | @cons bit x bits xs head tail ih =>
      rw [negations, List.zipIdx_cons]
      have rest : ∀ negated, Negated reads patterns negated (x, i) → Yields dry (do
          let others ← G.negations patterns (i + 1) bits
          pure (negated :: others))
          (List.Forall₂ (Negated reads patterns) · ((x, i) :: xs.zipIdx (i + 1))) :=
        fun negated hn => (ih (i + 1)).bind fun others ho => .pure (.cons hn ho)
      split
      · exact ((hom.not head).map fun b answer _ => ⟨b, rfl, answer⟩).bind rest
      · rename_i unneeded
        refine (Yields.pure fun ⟨pattern, member, clear⟩ => ?_).bind rest
        refine absurd (List.any_eq_true.mpr ⟨pattern, member, ?_⟩) unneeded
        rw [clear, Bool.not_false]

theorem literals_read {pattern : Nat} (member : pattern ∈ patterns) (i : Nat)
    (read : List.Forall₂ reads bits xs) {negated : List (Option (Bit C))}
    (hn : List.Forall₂ (Negated reads patterns) negated (xs.zipIdx i)) :
    List.Forall₂ reads (literals pattern i bits negated)
      ((xs.zipIdx i).map fun p => p.1 == pattern.testBit p.2) := by
  induction read generalizing i negated with
  | nil => exact .nil
  | @cons bit x bits xs head tail ih =>
      rw [List.zipIdx_cons] at hn ⊢
      obtain _ | @⟨negation, _, others, _, first, rest⟩ := hn
      rw [literals, List.map_cons]
      refine .cons ?_ (ih (i + 1) rest)
      cases digit : pattern.testBit i with
      | true => simpa [digit] using head
      | false =>
          obtain ⟨b, rfl, hb⟩ := first ⟨pattern, member, digit⟩
          simpa [digit] using hb

/-- The conjunction of a pattern's literals tells whether the held number agrees with it. -/
theorem Homomorphic.literals (hom : G.Homomorphic reads dry) {width n : Nat}
    (read : List.Forall₂ reads bits (binaryDigits width n)) (positive : 0 < width) {pattern : Nat}
    (member : pattern ∈ patterns) {negated : List (Option (Bit C))}
    (hn : List.Forall₂ (Negated reads patterns) negated ((binaryDigits width n).zipIdx 0)) :
    (G.andAll (literals pattern 0 bits negated)).Yields dry
      (reads · (decide (n % 2 ^ width = pattern % 2 ^ width))) := by
  rw [← all_agree_binaryDigits]
  refine hom.andAll (literals_read member 0 read hn) fun empty => ?_
  have zero : width = 0 := by simpa using congrArg List.length empty
  omega

theorem Homomorphic.matchPatterns (hom : G.Homomorphic reads dry) {width n : Nat}
    (read : List.Forall₂ reads bits (binaryDigits width n)) (positive : 0 < width)
    (narrow : width ≤ 64) (patterns : List Nat) :
    (G.matchPatterns bits patterns).Yields dry
      (List.Forall₂ (fun b pattern => reads b (decide (n % 2 ^ width = pattern % 2 ^ width))) ·
        patterns) := by
  have length := read.length_eq
  rw [length_binaryDigits] at length
  unfold Gates.matchPatterns
  apply Yields.guarded
  · omega
  · refine (negations_yields hom patterns 0 read).bind fun negated hn => ?_
    exact Yields.mapM_mem fun pattern member => hom.literals read positive member hn

theorem Homomorphic.matchPattern (hom : G.Homomorphic reads dry) {width n : Nat}
    (read : List.Forall₂ reads bits (binaryDigits width n)) (positive : 0 < width)
    (narrow : width ≤ 64) (pattern : Nat) :
    (G.matchPattern bits pattern).Yields dry
      (reads · (decide (n % 2 ^ width = pattern % 2 ^ width))) := by
  have length := read.length_eq
  rw [length_binaryDigits] at length
  unfold Gates.matchPattern
  apply Yields.guarded
  · omega
  · refine (negations_yields hom [pattern] 0 read).bind fun negated hn => ?_
    exact hom.literals read positive List.mem_cons_self hn

/-- Matching every number of a width decodes it: exactly the held number's bit is set. -/
theorem Homomorphic.decoder (hom : G.Homomorphic reads dry) {width n : Nat}
    (read : List.Forall₂ reads bits (binaryDigits width n)) (positive : 0 < width)
    (narrow : width ≤ 64) :
    (G.matchPatterns bits (List.range (2 ^ width))).Yields dry
      (List.Forall₂ (fun b i => reads b (decide (n % 2 ^ width = i))) ·
        (List.range (2 ^ width))) := by
  refine (hom.matchPatterns read positive narrow _).mono fun out answer => ?_
  refine (forall₂_and_mem answer).imp fun b i ⟨member, hb⟩ => ?_
  rw [Nat.mod_eq_of_lt (List.mem_range.mp member)] at hb
  exact hb

end Gates

end CipherMachine
