import CipherMachine.Gates.Selection
import CipherMachine.Proofs.Gates.Reduction
import CipherMachine.Proofs.Gates.Word

set_option autoImplicit false

/-!
Selection and multiplexing, in numbers.

The multiplexer adds the selected numbers digit by digit, so it gives the one number that is
selected if there is only one.
-/

namespace CipherMachine

open GateM

/-- The digitwise sum of the numbers whose selector is set. -/
def selectedSum : List (Bool × Nat) → Nat
  | [] => 0
  | (selector, n) :: rest => (if selector then n else 0) ^^^ selectedSum rest

theorem testBit_selectedSum (terms : List (Bool × Nat)) (i : Nat) :
    (selectedSum terms).testBit i = parity (terms.map fun term => term.1 && term.2.testBit i) := by
  induction terms with
  | nil => rw [selectedSum, Nat.zero_testBit, List.map_nil, parity_nil]
  | cons term rest ih =>
      obtain ⟨selector, n⟩ := term
      rw [selectedSum, Nat.testBit_xor, ih, List.map_cons, parity_cons]
      cases selector <;> simp

/-- Nothing is selected beyond the last index. -/
private theorem selectedSum_zipIdx_past (ns : List Nat) (start index : Nat)
    (past : index < start) :
    selectedSum ((ns.zipIdx start).map fun (n, i) => (decide (i = index), n)) = 0 := by
  induction ns generalizing start with
  | nil => rfl
  | cons n ns ih =>
      have other : start ≠ index := by omega
      rw [List.zipIdx_cons, List.map_cons, selectedSum, ih (start + 1) (by omega)]
      simp [other]

/-- A sum in which only one index is selected. -/
theorem selectedSum_zipIdx (ns : List Nat) (start index : Nat) :
    selectedSum ((ns.zipIdx start).map fun (n, i) => (decide (i = start + index), n)) =
      ns.getD index 0 := by
  induction ns generalizing start index with
  | nil => rfl
  | cons n ns ih =>
      rw [List.zipIdx_cons, List.map_cons, selectedSum]
      cases index with
      | zero =>
          rw [selectedSum_zipIdx_past ns (start + 1) (start + 0) (by omega)]
          simp
      | succ index =>
          have shifted : start + (index + 1) = start + 1 + index := by omega
          have other : start ≠ start + 1 + index := by omega
          rw [shifted, ih (start + 1) index]
          simp [other]

namespace Gates

variable {C S : Type}

/-- The candidates, each masked by its selector, combined digit by digit by a reduction. -/
def combineMasked (G : Gates C S) (reduction : List (Bit C) → GateM S (Bit C)) :
    List (Bit C × Word C) → GateM S (Word C)
  | [] => throw .noCandidate
  | first :: rest => do
    let terms := first :: rest
    let width := first.2.width
    if terms.any fun term => term.2.width != width then throw .candidateWidths
    let bits ← (List.range width).mapM fun i => do
      let masked ← terms.mapM fun (selector, word) => do G.and selector (← word.bit i)
      reduction masked
    return ⟨bits⟩

/-- The multiplexer adds the masked candidates up. -/
theorem mux_eq_combineMasked (G : Gates C S) (terms : List (Bit C × Word C)) :
    G.mux terms = G.combineMasked G.xorAll terms := by
  cases terms <;> rfl

end Gates

namespace Gates.Homomorphic

variable {C S : Type} {G : Gates C S} {reads : Bit C → Bool → Prop} {dry : S → Prop}

theorem select (hom : G.Homomorphic reads dry) {s a b : Bit C} {x y z : Bool} (hs : reads s x)
    (ha : reads a y) (hb : reads b z) :
    (G.select s a b).Yields dry (reads · (if x then y else z)) := by
  refine (hom.xor ha hb).bind fun difference hd => ?_
  refine (hom.and hs hd).bind fun masked hm => ?_
  refine (hom.xor hb hm).mono fun c answer => ?_
  have chosen : (z ^^ (x && (y ^^ z))) = if x then y else z := by
    cases x <;> cases y <;> cases z <;> rfl
  rwa [chosen] at answer

theorem selectWord (hom : G.Homomorphic reads dry) {s : Bit C} {x : Bool} {chosen other : Word C}
    {width m n : Nat} (hs : reads s x) (hc : chosen.Holds reads width m)
    (ho : other.Holds reads width n) :
    (G.selectWord s chosen other).Yields dry (·.Holds reads width (if x then m else n)) := by
  unfold Gates.selectWord
  apply Yields.guarded
  · rw [hc.width_eq, ho.width_eq]
    exact not_not_intro rfl
  · refine (bitwise_yields (fun ha hb => hom.select hs ha hb) hc ho fun i => ?_).bind
      fun bits answer => .pure answer
    split <;> rfl

/-- The digits of the combination, each that of the candidates under their selectors. -/
theorem combineMasked (hom : G.Homomorphic reads dry) {reduction : List (Bit C) → GateM S (Bit C)}
    {total : List Bool → Bool}
    (law : ∀ {bits xs}, List.Forall₂ reads bits xs → xs ≠ [] →
      (reduction bits).Yields dry (reads · (total xs)))
    {width : Nat} {terms : List (Bit C × Word C)} {values : List (Bool × Nat)}
    (nonempty : values ≠ [])
    (read : List.Forall₂ (fun t v => reads t.1 v.1 ∧ t.2.Holds reads width v.2) terms values) :
    (G.combineMasked reduction terms).Yields dry fun word => List.Forall₂ reads word.bits
      ((List.range width).map fun i => total (values.map fun v => v.1 && v.2.testBit i)) := by
  obtain _ | ⟨first, rest⟩ := terms
  · exact absurd (List.forall₂_nil_left_iff.mp read) nonempty
  have widths : ∀ t ∈ first :: rest, t.2.width = width := by
    intro t member
    obtain ⟨v, _, _, holds⟩ := exists_of_forall₂ read member
    exact holds.width_eq
  unfold Gates.combineMasked
  apply Yields.guarded
  · simp only [List.any_eq_true, bne_iff_ne, not_exists, not_and, not_not]
    intro t member
    rw [widths t member, widths first List.mem_cons_self]
  · refine (Yields.mapM_mem
      (T := fun b i => reads b (total (values.map fun v => v.1 && v.2.testBit i)))
      fun i member => ?_).bind fun bits answer => .pure ?_
    · have below : i < width := by
        rw [← widths first List.mem_cons_self]
        exact List.mem_range.mp member
      refine (Yields.mapM read (T := fun c v => reads c (v.1 && v.2.testBit i)) ?_).bind
        fun masked answer => law ?_ ?_
      · rintro ⟨selector, word⟩ v ⟨hs, holds⟩
        exact (holds.bit below).bind fun b hb => hom.and hs hb
      · rw [List.forall₂_map_right_iff]
        exact answer
      · simpa using nonempty
    · rw [List.forall₂_map_right_iff, ← widths first List.mem_cons_self]
      exact answer

/-- The multiplexer gives the digitwise sum of the selected numbers. -/
theorem mux (hom : G.Homomorphic reads dry) {width : Nat} {terms : List (Bit C × Word C)}
    {values : List (Bool × Nat)} (nonempty : values ≠ [])
    (read : List.Forall₂ (fun t v => reads t.1 v.1 ∧ t.2.Holds reads width v.2) terms values) :
    (G.mux terms).Yields dry (·.Holds reads width (selectedSum values)) := by
  have digits : binaryDigits width (selectedSum values) =
      (List.range width).map fun i => parity (values.map fun v => v.1 && v.2.testBit i) :=
    List.map_congr_left fun i _ => testBit_selectedSum values i
  rw [G.mux_eq_combineMasked]
  apply (hom.combineMasked hom.xorAll nonempty read).mono
  intro word answer
  rw [Word.Holds, digits]
  exact answer

end Gates.Homomorphic

end CipherMachine
