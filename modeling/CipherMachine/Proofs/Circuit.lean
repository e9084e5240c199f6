import CipherMachine.Proofs.Gates.Pattern
import CipherMachine.Proofs.Gates.Selection

set_option autoImplicit false

/-!
Circuits: sequences of operations whose operands are results of earlier ones.

A circuit grows a list of bits. An operation names its operands by their places in the list and
adds its results at the end. `Circuit.run` grows a list of encrypted bits, `Circuit.eval` says
what each operation computes on plain ones. Under homomorphic gates the one follows the other.
-/

namespace CipherMachine

open GateM

inductive Operation where
  | encrypt (bit : Bool)
  | refresh (a : Nat)
  | not (a : Nat)
  | and (a b : Nat)
  | xor (a b : Nat)
  | or (a b : Nat)
  | andAll (bits : List Nat)
  | orAll (bits : List Nat)
  | xorAll (bits : List Nat)
  | select (selector chosen other : Nat)
  /-- Every candidate is a selector and a word. -/
  | mux (terms : List (Nat × List Nat))
  | matchPatterns (bits patterns : List Nat)
  deriving DecidableEq, Repr

def operand {α : Type} (bits : List α) (place : Nat) : Except Fault α :=
  match bits[place]? with
  | some bit => .ok bit
  | none => .error .outOfRange

namespace Operation

variable {C S : Type}

def run (G : Gates C S) (bits : List (Bit C)) : Operation → GateM S (List (Bit C))
  | encrypt bit => do return [← G.encrypt bit]
  | refresh a => do return [← G.refresh (← operand bits a)]
  | not a => do return [← G.not (← operand bits a)]
  | and a b => do return [← G.and (← operand bits a) (← operand bits b)]
  | xor a b => do return [← G.xor (← operand bits a) (← operand bits b)]
  | or a b => do return [← G.or (← operand bits a) (← operand bits b)]
  | andAll as => do return [← G.andAll (← as.mapM fun a => operand bits a)]
  | orAll as => do return [← G.orAll (← as.mapM fun a => operand bits a)]
  | xorAll as => do return [← G.xorAll (← as.mapM fun a => operand bits a)]
  | select s a b => do
    return [← G.select (← operand bits s) (← operand bits a) (← operand bits b)]
  | mux terms => do
    let candidates ← terms.mapM fun (s, word) => do
      return (← operand bits s, (⟨← word.mapM fun a => operand bits a⟩ : Word C))
    return (← G.mux candidates).bits
  | matchPatterns as patterns => do
    G.matchPatterns (← as.mapM fun a => operand bits a) patterns

/-- A reduction, which needs a bit to reduce. -/
def reduction (reduce : List Bool → Bool) (xs : List Bool) : Except Fault (List Bool) :=
  match xs with
  | [] => .error .emptyReduction
  | x :: rest => .ok [reduce (x :: rest)]

/-- The multiplexer on plain bits: at every index the parity of the selected candidates' bits. -/
def multiplex : List (Bool × List Bool) → Except Fault (List Bool)
  | [] => .error .noCandidate
  | first :: rest =>
    let terms := first :: rest
    if terms.any fun term => term.2.length != first.2.length then .error .candidateWidths
    else .ok <| (List.range first.2.length).map fun i =>
      parity (terms.map fun term => term.1 && term.2.getD i false)

/-- Which patterns have the given bits as their lowest binary digits. -/
def matching (xs : List Bool) (patterns : List Nat) : Except Fault (List Bool) :=
  if 64 < xs.length then .error .patternTooWide
  else if xs = [] ∧ patterns ≠ [] then .error .emptyReduction
  else .ok (patterns.map fun pattern => decide (xs = binaryDigits xs.length pattern))

def eval (xs : List Bool) : Operation → Except Fault (List Bool)
  | encrypt bit => return [bit]
  | refresh a => do return [← operand xs a]
  | not a => do return [!(← operand xs a)]
  | and a b => do return [(← operand xs a) && (← operand xs b)]
  | xor a b => do return [(← operand xs a) ^^ (← operand xs b)]
  | or a b => do return [(← operand xs a) || (← operand xs b)]
  | andAll as => do reduction (List.all · id) (← as.mapM (operand xs))
  | orAll as => do reduction (List.any · id) (← as.mapM (operand xs))
  | xorAll as => do reduction parity (← as.mapM (operand xs))
  | select s a b => do
    let selector ← operand xs s
    let chosen ← operand xs a
    let other ← operand xs b
    return [if selector then chosen else other]
  | mux terms => do
    multiplex (← terms.mapM fun (s, word) => do
      return (← operand xs s, ← word.mapM (operand xs)))
  | matchPatterns as patterns => do matching (← as.mapM (operand xs)) patterns

end Operation

abbrev Circuit := List Operation

namespace Circuit

variable {C S : Type}

def run (G : Gates C S) (bits : List (Bit C)) : Circuit → GateM S (List (Bit C))
  | [] => return bits
  | operation :: rest => do
    let results ← operation.run G bits
    run G (bits ++ results) rest

def eval (xs : List Bool) : Circuit → Except Fault (List Bool)
  | [] => return xs
  | operation :: rest => do
    let results ← operation.eval xs
    eval (xs ++ results) rest

end Circuit

section

variable {C S : Type} {G : Gates C S} {reads : Bit C → Bool → Prop} {dry : S → Prop}
  {bits : List (Bit C)} {xs : List Bool}

theorem operand_follows (read : List.Forall₂ reads bits xs) (place : Nat) :
    Follows dry (liftM (operand bits place) : GateM S (Bit C)) (operand xs place) reads := by
  unfold operand
  obtain ⟨a, b, left, right, both⟩ | ⟨left, right⟩ := forall₂_getElem? read place
  · rw [left, right]
    exact .ofYields (.lift rfl both)
  · rw [left, right]
    exact .throw .outOfRange

theorem operands_follow (read : List.Forall₂ reads bits xs) (places : List Nat) :
    Follows dry (places.mapM fun a => (liftM (operand bits a) : GateM S (Bit C)))
      (places.mapM (operand xs)) (List.Forall₂ reads) := by
  refine .mapM (R := Eq) (List.forall₂_same.mpr fun _ _ => rfl) ?_
  rintro a _ rfl
  exact operand_follows read a

private theorem single {m : GateM S (Bit C)} {x : Bool} (yields : m.Yields dry (reads · x)) :
    Follows dry (do return [← m]) (.ok [x]) (List.Forall₂ reads) :=
  .ofYields (yields.bind fun _ hb => .pure (.cons hb .nil))

/-- A reduction that is right on every list with an element. -/
private theorem reduction_follows {reduce : List (Bit C) → GateM S (Bit C)}
    {function : List Bool → Bool}
    (empty : reduce [] = throw .emptyReduction)
    (law : ∀ {bits xs}, List.Forall₂ reads bits xs → xs ≠ [] →
      (reduce bits).Yields dry (reads · (function xs)))
    (read : List.Forall₂ reads bits xs) :
    Follows dry (do return [← reduce bits]) (Operation.reduction function xs)
      (List.Forall₂ reads) := by
  cases read with
  | nil =>
      rw [empty]
      exact fun _ => .inr rfl
  | cons head tail => exact single (law (.cons head tail) (List.cons_ne_nil _ _))

private theorem holds_binaryValue (read : List.Forall₂ reads bits xs) :
    Word.Holds reads ⟨bits⟩ xs.length (binaryValue xs) := by
  rw [Word.Holds, binaryDigits_binaryValue]
  exact read

/-- The candidates of a multiplexer and the plain ones. -/
private def Candidate (reads : Bit C → Bool → Prop) (term : Bit C × Word C)
    (value : Bool × List Bool) : Prop :=
  reads term.1 value.1 ∧ List.Forall₂ reads term.2.bits value.2

private theorem candidates_follow (read : List.Forall₂ reads bits xs)
    (terms : List (Nat × List Nat)) :
    Follows dry
      (terms.mapM fun (s, word) => (do
        return (← operand bits s, (⟨← word.mapM fun a => operand bits a⟩ : Word C)) :
          GateM S (Bit C × Word C)))
      (terms.mapM fun (s, word) => do return (← operand xs s, ← word.mapM (operand xs)))
      (List.Forall₂ (Candidate reads)) := by
  refine .mapM (R := Eq) (List.forall₂_same.mpr fun _ _ => rfl) ?_
  rintro ⟨s, word⟩ _ rfl
  refine (operand_follows read s).bind fun _ _ hs => ?_
  exact (operands_follow read word).bind fun _ _ hw => .ofYields (.pure ⟨hs, hw⟩)

private theorem multiplex_follows (hom : G.Homomorphic reads dry)
    {terms : List (Bit C × Word C)} {values : List (Bool × List Bool)}
    (read : List.Forall₂ (Candidate reads) terms values) :
    Follows dry (do return (← G.mux terms).bits) (Operation.multiplex values)
      (List.Forall₂ reads) := by
  cases read with
  | nil => exact fun _ => .inr rfl
  | @cons term value terms values head tail =>
      have candidates : List.Forall₂ (Candidate reads) (term :: terms) (value :: values) :=
        .cons head tail
      have widths : ((term :: terms).any fun t => t.2.width != term.2.width) =
          ((value :: values).any fun v => v.2.length != value.2.length) := by
        have first : term.2.width = value.2.length := head.2.length_eq
        rw [first]
        exact any_width_eq (candidates.imp fun _ _ holds => holds.2.length_eq) _
      unfold Operation.multiplex
      dsimp only
      by_cases mismatch : ((value :: values).any fun v => v.2.length != value.2.length) = true
      · intro s
        have refused : (G.mux (term :: terms)).exec s = (.error .candidateWidths, s) := by
          unfold Gates.mux
          dsimp only
          rw [if_pos (widths.trans mismatch)]
          rfl
        rw [if_pos mismatch, exec_bind, refused]
        exact .inr rfl
      · rw [if_neg mismatch]
        have numbers : List.Forall₂
            (fun t v => reads t.1 v.1 ∧ t.2.Holds reads value.2.length v.2) (term :: terms)
            ((value :: values).map fun v => (v.1, binaryValue v.2)) := by
          rw [List.forall₂_map_right_iff]
          refine (forall₂_and_mem candidates).imp fun t v ⟨member, hs, hw⟩ => ⟨hs, ?_⟩
          have width : v.2.length = value.2.length := by
            simp only [List.any_eq_true, bne_iff_ne, not_exists, not_and, not_not] at mismatch
            exact mismatch v member
          rw [← width]
          exact holds_binaryValue hw
        refine .ofYields ((hom.mux (by simp) numbers).bind fun word holds => .pure ?_)
        have digits : binaryDigits value.2.length
            (selectedSum ((value :: values).map fun v => (v.1, binaryValue v.2))) =
            (List.range value.2.length).map fun i =>
              parity ((value :: values).map fun v => v.1 && v.2.getD i false) := by
          apply List.map_congr_left
          intro i _
          rw [testBit_selectedSum, List.map_map]
          congr 1
          apply List.map_congr_left
          intro v _
          rw [Function.comp, testBit_binaryValue]
        rw [← digits]
        exact holds

private theorem matching_follows (hom : G.Homomorphic reads dry)
    (read : List.Forall₂ reads bits xs) (patterns : List Nat) :
    Follows dry (G.matchPatterns bits patterns) (Operation.matching xs patterns)
      (List.Forall₂ reads) := by
  unfold Operation.matching
  by_cases wide : 64 < xs.length
  · rw [if_pos wide]
    unfold Gates.matchPatterns
    rw [read.length_eq, if_pos wide]
    exact fun _ => .inr rfl
  rw [if_neg wide]
  cases read with
  | nil =>
      cases patterns with
      | nil => exact .ofYields (.pure .nil)
      | cons pattern patterns => exact fun _ => .inr rfl
  | @cons bit x bits xs head tail =>
      rw [if_neg (fun empty => List.cons_ne_nil _ _ empty.1)]
      have narrow : (x :: xs).length ≤ 64 := Nat.not_lt.mp wide
      have holds := holds_binaryValue (.cons head tail)
      refine .ofYields ((hom.matchPatterns holds (Nat.succ_pos _) narrow patterns).mono
        fun out answer => ?_)
      rw [List.forall₂_map_right_iff]
      refine answer.imp fun b pattern hb => ?_
      have same : binaryValue (x :: xs) % 2 ^ (x :: xs).length = pattern % 2 ^ (x :: xs).length ↔
          x :: xs = binaryDigits (x :: xs).length pattern := by
        rw [← binaryDigits_inj, binaryDigits_binaryValue]
      rwa [← decide_eq_decide.mpr same]

theorem Operation.run_follows (hom : G.Homomorphic reads dry) (read : List.Forall₂ reads bits xs)
    (operation : Operation) :
    Follows dry (operation.run G bits) (operation.eval xs) (List.Forall₂ reads) := by
  cases operation with
  | encrypt bit => exact single (hom.encrypt bit)
  | refresh a => exact (operand_follows read a).bind fun _ _ ha => single (hom.refresh ha)
  | not a => exact (operand_follows read a).bind fun _ _ ha => single (hom.not ha)
  | and a b =>
      refine (operand_follows read a).bind fun _ _ ha => ?_
      exact (operand_follows read b).bind fun _ _ hb => single (hom.and ha hb)
  | xor a b =>
      refine (operand_follows read a).bind fun _ _ ha => ?_
      exact (operand_follows read b).bind fun _ _ hb => single (hom.xor ha hb)
  | or a b =>
      refine (operand_follows read a).bind fun _ _ ha => ?_
      exact (operand_follows read b).bind fun _ _ hb => single (hom.or ha hb)
  | andAll as =>
      exact (operands_follow read as).bind fun _ _ h => reduction_follows rfl hom.andAll h
  | orAll as =>
      exact (operands_follow read as).bind fun _ _ h => reduction_follows rfl hom.orAll h
  | xorAll as =>
      exact (operands_follow read as).bind fun _ _ h => reduction_follows rfl hom.xorAll h
  | select s a b =>
      refine (operand_follows read s).bind fun _ _ hs => ?_
      refine (operand_follows read a).bind fun _ _ ha => ?_
      exact (operand_follows read b).bind fun _ _ hb => single (hom.select hs ha hb)
  | mux terms =>
      exact (candidates_follow read terms).bind fun _ _ h => multiplex_follows hom h
  | matchPatterns as patterns =>
      exact (operands_follow read as).bind fun _ _ h => matching_follows hom h patterns

/-- Encrypted evaluation of a circuit follows its boolean function. -/
theorem Circuit.run_follows (hom : G.Homomorphic reads dry) (read : List.Forall₂ reads bits xs)
    (circuit : Circuit) :
    Follows dry (circuit.run G bits) (circuit.eval xs) (List.Forall₂ reads) := by
  induction circuit generalizing bits xs with
  | nil => exact .ofYields (.pure read)
  | cons operation rest ih =>
      refine (operation.run_follows hom read).bind fun results values answer => ?_
      exact ih (List.rel_append read answer)

end

example : Circuit.eval [] [.encrypt true, .encrypt false, .or 0 1, .mux [(2, [0, 1])]] =
    .ok [true, false, true, true, false] := by decide

end CipherMachine
