import CipherMachine.Proofs.PlainBit
import Mathlib.Data.List.Perm.Basic

set_option autoImplicit false

/-!
Reductions agree with every circuit of the same gates on the same bits.

Conjunction, disjunction and exclusive disjunction are associative and commutative, so a circuit
that uses each bit once computes the same whatever its shape, the order of its bits and the
refreshes on its way. The balanced tree of a reduction is one of them.
-/

namespace CipherMachine

open GateM

/-- An operation that can be taken over any number of bits. -/
inductive Connective where
  | and
  | or
  | xor
  deriving DecidableEq, Repr

namespace Connective

variable {C S : Type}

def apply : Connective → Bool → Bool → Bool
  | and => Bool.and
  | or => Bool.or
  | xor => Bool.xor

def unit : Connective → Bool
  | and => true
  | or => false
  | xor => false

def total : Connective → List Bool → Bool
  | and, xs => xs.all id
  | or, xs => xs.any id
  | xor, xs => parity xs

def gate (G : Gates C S) : Connective → Bit C → Bit C → GateM S (Bit C)
  | and => G.and
  | or => G.or
  | xor => G.xor

def reduction (G : Gates C S) : Connective → List (Bit C) → GateM S (Bit C)
  | and => G.andAll
  | or => G.orAll
  | xor => G.xorAll

variable (op : Connective)

theorem total_eq_foldr (xs : List Bool) : op.total xs = xs.foldr op.apply op.unit := by
  cases op with
  | and => exact (foldr_and xs).symm
  | or => exact (foldr_or xs).symm
  | xor => rfl

theorem apply_assoc (x y z : Bool) :
    op.apply (op.apply x y) z = op.apply x (op.apply y z) := by
  cases op with
  | and => exact Bool.and_assoc x y z
  | or => exact Bool.or_assoc x y z
  | xor => exact Bool.xor_assoc x y z

theorem apply_comm (x y : Bool) : op.apply x y = op.apply y x := by
  cases op with
  | and => exact Bool.and_comm x y
  | or => exact Bool.or_comm x y
  | xor => exact Bool.xor_comm x y

theorem apply_unit (x : Bool) : op.apply x op.unit = x := by
  cases op with
  | and => exact Bool.and_true x
  | or => exact Bool.or_false x
  | xor => exact Bool.xor_false x

theorem total_singleton (x : Bool) : op.total [x] = x := by
  rw [total_eq_foldr]
  exact op.apply_unit x

theorem total_append (xs ys : List Bool) :
    op.total (xs ++ ys) = op.apply (op.total xs) (op.total ys) := by
  simp only [total_eq_foldr]
  induction xs with
  | nil => rw [List.nil_append, List.foldr_nil, apply_comm, apply_unit]
  | cons x xs ih => rw [List.cons_append, List.foldr_cons, List.foldr_cons, ih, apply_assoc]

theorem total_perm {xs ys : List Bool} (perm : xs.Perm ys) : op.total xs = op.total ys := by
  have : LeftCommutative op.apply :=
    ⟨fun x y z => by rw [← apply_assoc, op.apply_comm x y, apply_assoc]⟩
  simp only [total_eq_foldr]
  exact perm.foldr_eq op.unit

end Connective

theorem passCount_pos_iff (length : Nat) : 0 < passCount length ↔ 1 < length := by
  rw [passCount]
  split <;> omega

/-- A pass is one of those that a list calls for. -/
theorem succ_lt_passCount_iff {length : Nat} (positive : 0 < length) (n : Nat) :
    n + 1 < passCount length ↔ n < passCount ((length + 1) / 2) := by
  by_cases single : length = 1
  · have none : passCount 1 = 0 := by rw [passCount, if_pos (Nat.le_refl 1)]
    rw [single, none]
    omega
  · rw [passCount, if_neg (by omega)]
    omega

/-- A circuit over one operation: a tree with bits for leaves, refreshed wherever its builder
pleases. -/
inductive Grouping (C : Type) where
  | leaf (bit : Bit C)
  | pair (left right : Grouping C)
  | refreshed (inner : Grouping C)

namespace Grouping

variable {C S : Type}

def leaves : Grouping C → List (Bit C)
  | leaf bit => [bit]
  | pair left right => left.leaves ++ right.leaves
  | refreshed inner => inner.leaves

def build (G : Gates C S) (op : Connective) : Grouping C → GateM S (Bit C)
  | leaf bit => return bit
  | pair left right => do
    let a ← left.build G op
    let b ← right.build G op
    op.gate G a b
  | refreshed inner => do G.refresh (← inner.build G op)

end Grouping

namespace Gates.Homomorphic

variable {C S : Type} {G : Gates C S} {reads : Bit C → Bool → Prop} {dry : S → Prop}
  (hom : G.Homomorphic reads dry) (op : Connective)
include hom

theorem gate {a b : Bit C} {x y : Bool} (ha : reads a x) (hb : reads b y) :
    (op.gate G a b).Yields dry (reads · (op.apply x y)) := by
  cases op with
  | and => exact hom.and ha hb
  | or => exact hom.or ha hb
  | xor => exact hom.xor ha hb

theorem reduction {bits : List (Bit C)} {xs : List Bool} (read : List.Forall₂ reads bits xs)
    (nonempty : xs ≠ []) : (op.reduction G bits).Yields dry (reads · (op.total xs)) := by
  cases op with
  | and => exact hom.andAll read nonempty
  | or => exact hom.orAll read nonempty
  | xor => exact hom.xorAll read nonempty

/-- More than one bit is left exactly as long as passes are left. -/
theorem passes {bits : List (Bit C)} {xs : List Bool} (read : List.Forall₂ reads bits xs)
    (nonempty : xs ≠ []) (n : Nat) :
    (CipherMachine.passes (op.gate G) n bits).Yields dry fun layer =>
      layer ≠ [] ∧ (1 < layer.length ↔ n < passCount bits.length) := by
  have length := read.length_eq
  have positive := List.length_pos_of_ne_nil nonempty
  induction n generalizing bits xs with
  | zero =>
      refine .pure ⟨List.ne_nil_of_length_pos (length ▸ positive), ?_⟩
      exact (passCount_pos_iff bits.length).symm
  | succ n ih =>
      refine (pairwise_yields op.apply_assoc (hom.gate op) read).bind fun layer half => ?_
      obtain ⟨ys, outs, halved, _⟩ := half
      have shorter := outs.length_eq
      refine (ih outs ?_ shorter ?_).mono fun top ⟨some_bit, left⟩ => ⟨some_bit, ?_⟩
      · apply List.ne_nil_of_length_pos
        omega
      · omega
      · rw [left, shorter, halved, length]
        exact (succ_lt_passCount_iff positive n).symm

theorem build {value : Bit C → Bool} (grouping : Grouping C)
    (read : ∀ bit ∈ grouping.leaves, reads bit (value bit)) :
    (grouping.build G op).Yields dry (reads · (op.total (grouping.leaves.map value))) := by
  induction grouping with
  | leaf bit =>
      rw [Grouping.leaves, List.map_singleton, op.total_singleton]
      exact .pure (read bit List.mem_cons_self)
  | pair left right ihl ihr =>
      rw [Grouping.leaves, List.forall_mem_append] at read
      rw [Grouping.leaves, List.map_append, op.total_append]
      refine (ihl read.1).bind fun a ha => ?_
      exact (ihr read.2).bind fun b hb => hom.gate op ha hb
  | refreshed inner ih => exact (ih read).bind fun a ha => hom.refresh ha

end Gates.Homomorphic

/-- On plain bits the passes of a reduction end with one bit exactly when they are all made, and the
reductions give the conjunction, the disjunction and the parity. So does any other circuit on the
same bits, in whatever order and however it groups and refreshes them. -/
theorem Gates.groupings_agree {S : Type} {scheme : Scheme Bool S} {G : Gates Bool S}
    (plain : scheme.PlainBit) (accepted : ofScheme scheme = .ok G) {bits : List (Bit Bool)}
    (nonempty : bits ≠ []) (s : Session S) :
    (∀ (op : Connective) (n : Nat), ∃ layer t,
      (passes (op.gate G) n bits).exec s = (.ok layer, t) ∧ layer ≠ [] ∧
        (1 < layer.length ↔ n < passCount bits.length)) ∧
    (∃ b t, (G.andAll bits).exec s = (.ok b, t) ∧
      G.decrypt b = (bits.map G.decrypt).all id) ∧
    (∃ b t, (G.orAll bits).exec s = (.ok b, t) ∧
      G.decrypt b = (bits.map G.decrypt).any id) ∧
    (∃ b t, (G.xorAll bits).exec s = (.ok b, t) ∧
      G.decrypt b = parity (bits.map G.decrypt)) ∧
    (∀ (op : Connective) (order : List (Bit Bool)), order.Perm bits →
      ∃ b t, (op.reduction G order).exec s = (.ok b, t) ∧
        G.decrypt b = op.total (bits.map G.decrypt)) ∧
    ∀ (op : Connective) (grouping : Grouping Bool), grouping.leaves.Perm bits →
      ∃ b t, (grouping.build G op).exec s = (.ok b, t) ∧
        G.decrypt b = op.total (bits.map G.decrypt) := by
  obtain rfl := scheme_of_ofScheme accepted
  have hom := homomorphic plain.preserves
  have reads (bit : Bit Bool) : reading (fun c _ x => c = x) bit (G.decrypt bit) :=
    (plain.decrypt bit.cipher).symm
  have read (list : List (Bit Bool)) :
      List.Forall₂ (reading fun c _ x => c = x) list (list.map G.decrypt) := by
    rw [List.forall₂_map_right_iff, List.forall₂_same]
    exact fun bit _ => reads bit
  have opened {m : GateM S (Bit Bool)} {x : Bool}
      (yields : m.Yields (fun _ => False) (reading (fun c _ x => c = x) · x)) :
      ∃ b t, m.exec s = (.ok b, t) ∧ G.decrypt b = x := by
    obtain ⟨b, t, answer, holds⟩ := yields.answer s
    exact ⟨b, t, answer, plain.opens holds⟩
  have some_bit : bits.map G.decrypt ≠ [] := fun empty => nonempty (List.map_eq_nil_iff.mp empty)
  refine ⟨fun op n => (hom.passes op (read bits) some_bit n).answer s, ?_, ?_, ?_, ?_, ?_⟩
  · exact opened (hom.andAll (read bits) some_bit)
  · exact opened (hom.orAll (read bits) some_bit)
  · exact opened (hom.xorAll (read bits) some_bit)
  · intro op order perm
    have same := op.total_perm (perm.map G.decrypt)
    have some_order : order.map G.decrypt ≠ [] := by
      intro empty
      rw [List.map_eq_nil_iff.mp empty] at perm
      exact nonempty perm.nil_eq.symm
    rw [← same]
    exact opened (hom.reduction op (read order) some_order)
  · intro op grouping perm
    rw [← op.total_perm (perm.map G.decrypt)]
    exact opened (hom.build op grouping fun bit _ => reads bit)

/-- Three bits, under a budget with no room above a conjunction of fresh ciphertexts: the reduction
groups them to the left, and the circuit to the right in another order. -/
theorem Gates.groupings_agree_three :
    let plain : Gates Bool Unit := ⟨.plain { fresh := 3, budget := 6 }, by decide⟩
    let a : Bit Bool := ⟨true, 3⟩
    let b : Bit Bool := ⟨false, 6⟩
    let c : Bit Bool := ⟨true, 5⟩
    (∃ top t, (plain.xorAll [a, b, c]).exec ⟨(), {}⟩ = (.ok top, t) ∧
        plain.decrypt top = false) ∧
      ∃ top t, (Grouping.build plain .xor (.pair (.leaf b) (.pair (.leaf c) (.leaf a)))).exec
          ⟨(), {}⟩ = (.ok top, t) ∧ plain.decrypt top = false := by
  intro plain a b c
  have known := groupings_agree (Scheme.plainBit_plain _)
    (ofScheme_scheme plain) (List.cons_ne_nil a [b, c]) ⟨(), {}⟩
  exact ⟨known.2.2.2.1, known.2.2.2.2.2 .xor (.pair (.leaf b) (.pair (.leaf c) (.leaf a)))
    (by decide)⟩

end CipherMachine
