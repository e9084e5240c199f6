import CipherMachine.Proofs.PlainBit

set_option autoImplicit false

/-!
The multiplexer selects.

It adds its candidates up under their selectors, digit by digit. No digit is set in two candidates
if one is selected at most, and then a sum is as good as a disjunction.
-/

namespace CipherMachine

open GateM

/-- The selected numbers, and no others, are added. -/
theorem selectedSum_eq_foldr (values : List (Bool × Nat)) :
    selectedSum values = ((values.filter Prod.fst).map Prod.snd).foldr (· ^^^ ·) 0 := by
  induction values with
  | nil => rfl
  | cons value rest ih =>
      obtain ⟨selector, n⟩ := value
      cases selector <;> simp [selectedSum, ih]

theorem selectedSum_lt {width : Nat} {values : List (Bool × Nat)}
    (below : ∀ v ∈ values, v.2 < 2 ^ width) : selectedSum values < 2 ^ width := by
  induction values with
  | nil => exact Nat.two_pow_pos width
  | cons value rest ih =>
      have ⟨first, others⟩ := List.forall_mem_cons.mp below
      rw [selectedSum]
      apply Nat.xor_lt_two_pow _ (ih others)
      split
      · exact first
      · exact Nat.two_pow_pos width

/-- The sum of digits of which one is set at most tells whether one is. -/
theorem parity_eq_any {xs : List Bool} (few : xs.count true ≤ 1) : parity xs = xs.any id := by
  induction xs with
  | nil => rfl
  | cons x xs ih =>
      cases x with
      | false =>
          rw [List.count_cons_of_ne Bool.false_ne_true] at few
          simp [ih few]
      | true =>
          rw [List.count_cons_self] at few
          have clear : true ∉ xs := List.count_eq_zero.mp (by omega)
          simpa [ih (by omega)] using clear

/-- A digit is set in no more candidates than are selected. -/
theorem count_masked_le (values : List (Bool × Nat)) (i : Nat) :
    (values.map fun v => v.1 && v.2.testBit i).count true ≤ (values.filter Prod.fst).length := by
  rw [List.count_eq_countP, List.countP_map, ← List.countP_eq_length_filter]
  apply List.countP_mono_left
  intro v _ set
  simp only [Function.comp_apply, beq_iff_eq, Bool.and_eq_true] at set
  exact set.1

namespace Gates

/-- What selectors and candidates decrypt to. -/
def opened {C S : Type} (G : Gates C S) (terms : List (Bit C × Word C)) : List (Bool × Nat) :=
  terms.map fun term => (G.decrypt term.1, G.value term.2)

section

variable {C S : Type} {G : Gates C S} {width : Nat} {terms : List (Bit C × Word C)}

/-- The candidates that are selected, opened before or after the selection. -/
theorem selected_opened (G : Gates C S) (terms : List (Bit C × Word C)) :
    ((G.opened terms).filter Prod.fst).map Prod.snd =
      ((terms.filter fun term => G.decrypt term.1).map Prod.snd).map G.value := by
  simp only [opened, List.filter_map, List.map_map]
  rfl

theorem selectedSum_opened_lt (widths : ∀ term ∈ terms, term.2.width = width) :
    selectedSum (G.opened terms) < 2 ^ width := by
  apply selectedSum_lt
  intro v member
  obtain ⟨term, listed, rfl⟩ := List.mem_map.mp member
  rw [← widths term listed]
  exact G.value_lt term.2

/-- Words of one width and one value have the same bits. -/
theorem decryptBits_eq {v w : Word C} (same : v.width = w.width) (value : G.value v = G.value w) :
    G.decryptBits v = G.decryptBits w := by
  rw [← G.binaryDigits_value same, value, G.binaryDigits_value rfl]

/-- Disjunctions add as well if one candidate is selected at most. -/
theorem Homomorphic.combineMasked_orAll {reads : Bit C → Bool → Prop} {dry : S → Prop}
    (hom : G.Homomorphic reads dry) {values : List (Bool × Nat)} (nonempty : values ≠ [])
    (read : List.Forall₂ (fun t v => reads t.1 v.1 ∧ t.2.Holds reads width v.2) terms values)
    (few : (values.filter Prod.fst).length ≤ 1) :
    (G.combineMasked G.orAll terms).Yields dry
      (·.Holds reads width (selectedSum values)) := by
  have digits : binaryDigits width (selectedSum values) =
      (List.range width).map fun i => (values.map fun v => v.1 && v.2.testBit i).any id := by
    apply List.map_congr_left
    intro i _
    rw [testBit_selectedSum]
    exact parity_eq_any ((count_masked_le values i).trans few)
  apply (hom.combineMasked hom.orAll nonempty read).mono
  intro word answer
  rw [Word.Holds, digits]
  exact answer

end

/-- The multiplexer answers with the bitwise sum of the candidates whose selector is set: with the
one candidate selected, with zero if there is none, and with what disjunctions in place of the sums
would give as long as there are not two. -/
theorem mux_selects {S : Type} {scheme : Scheme Bool S} {G : Gates Bool S}
    (plain : scheme.PlainBit) (accepted : ofScheme scheme = .ok G) {width : Nat}
    {terms : List (Bit Bool × Word Bool)} (nonempty : terms ≠ [])
    (widths : ∀ term ∈ terms, term.2.width = width) (s : Session S) :
    let chosen := (terms.filter fun term => G.decrypt term.1).map Prod.snd
    ∃ out t, (G.mux terms).exec s = (.ok out, t) ∧ out.width = width ∧
      G.value out = (chosen.map G.value).foldr (· ^^^ ·) 0 ∧
      (∀ word, chosen = [word] → G.decryptBits out = G.decryptBits word) ∧
      (chosen = [] → G.decryptBits out = List.replicate width false) ∧
      (chosen.length ≤ 1 → ∀ s', ∃ other t',
        (G.combineMasked G.orAll terms).exec s' = (.ok other, t') ∧
          G.decryptBits other = G.decryptBits out) := by
  obtain rfl := scheme_of_ofScheme accepted
  intro chosen
  have hom := homomorphic plain.preserves
  have opens : G.Opens (reading fun c _ x => c = x) := plain.opens
  have some_value : G.opened terms ≠ [] := by simpa [opened] using nonempty
  have read : List.Forall₂ (fun t v => reading (fun c _ x => c = x) t.1 v.1 ∧
      t.2.Holds (reading fun c _ x => c = x) width v.2) terms (G.opened terms) := by
    rw [opened, List.forall₂_map_right_iff, List.forall₂_same]
    intro term member
    exact ⟨plain.reads term.1, plain.holds (widths term member)⟩
  have selected : ((G.opened terms).filter Prod.fst).map Prod.snd = chosen.map G.value :=
    G.selected_opened terms
  obtain ⟨out, t, ran, holds⟩ := (hom.mux some_value read).answer s
  have same := holds.width_eq
  have value := opens.value holds
  rw [Nat.mod_eq_of_lt (selectedSum_opened_lt widths), selectedSum_eq_foldr, selected] at value
  refine ⟨out, t, ran, same, value, ?_, ?_, ?_⟩
  · intro word alone
    have listed : word ∈ chosen := by simp [alone]
    obtain ⟨term, member, rfl⟩ := List.mem_map.mp listed
    have agree := same.trans (widths term (List.mem_of_mem_filter member)).symm
    rw [alone] at value
    apply decryptBits_eq agree
    simpa using value
  · intro none
    rw [none] at value
    rw [← G.binaryDigits_value same, value]
    simp [binaryDigits, List.eq_replicate_iff]
  · intro few s'
    have alone : ((G.opened terms).filter Prod.fst).length ≤ 1 := by
      have lengths := congrArg List.length selected
      rw [List.length_map, List.length_map] at lengths
      rw [lengths]
      exact few
    obtain ⟨other, t', combined, sum⟩ :=
      (hom.combineMasked_orAll some_value read alone).answer s'
    refine ⟨other, t', combined, ?_⟩
    apply decryptBits_eq (sum.width_eq.trans same.symm)
    rw [opens.value sum, opens.value holds]

/-- Three and six selected together give five, and not seven. If just three is selected,
disjunctions give it as well. -/
theorem mux_selects_both :
    let G : Gates Bool Unit := ⟨.plain { fresh := 3, budget := 6 }, by decide⟩
    let three : Word Bool := ⟨[⟨true, 6⟩, ⟨true, 3⟩, ⟨false, 5⟩]⟩
    let six : Word Bool := ⟨[⟨false, 3⟩, ⟨true, 4⟩, ⟨true, 6⟩]⟩
    let both : List (Bit Bool × Word Bool) := [(⟨true, 3⟩, three), (⟨true, 5⟩, six)]
    let first : List (Bit Bool × Word Bool) := [(⟨true, 3⟩, three), (⟨false, 5⟩, six)]
    (∃ out t, (G.mux both).exec ⟨(), {}⟩ = (.ok out, t) ∧ G.value out = 5) ∧
      ∃ out t, (G.combineMasked G.orAll first).exec ⟨(), {}⟩ = (.ok out, t) ∧
        G.decryptBits out = [true, true, false] := by
  intro G three six both first
  have plain := Scheme.plainBit_plain { fresh := 3, budget := 6 }
  have accepted := ofScheme_scheme G
  refine ⟨?_, ?_⟩
  · have widths : ∀ term ∈ both, term.2.width = 3 := by decide
    obtain ⟨out, t, ran, _, value, _⟩ :=
      mux_selects plain accepted (List.cons_ne_nil _ _) widths ⟨(), {}⟩
    exact ⟨out, t, ran, value.trans (by decide)⟩
  · have widths : ∀ term ∈ first, term.2.width = 3 := by decide
    obtain ⟨_, _, _, _, _, one, _, agree⟩ :=
      mux_selects plain accepted (List.cons_ne_nil _ _) widths ⟨(), {}⟩
    obtain ⟨other, t, combined, same⟩ := agree (by decide) ⟨(), {}⟩
    refine ⟨other, t, combined, ?_⟩
    rw [same, one three rfl]
    rfl

end Gates

end CipherMachine
