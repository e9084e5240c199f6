import CipherMachine.Gates.Arithmetic
import CipherMachine.Proofs.Homomorphism

set_option autoImplicit false

/-!
Encrypted words that hold numbers.

A word holds the number whose binary digits its bits stand for. Cutting a word, replacing its low
bits and rotating it evaluate no gate, and act on the number by division and multiplication by
powers of two.

Under `anyBit`, the reading that says nothing of bits, a law of an operation speaks of widths alone,
and says that on arguments of the right widths the operation does not fault.
-/

namespace CipherMachine

open GateM

theorem exists_of_forall₂ {α β : Type} {R : α → β → Prop} {as : List α} {bs : List β}
    (related : List.Forall₂ R as bs) {a : α} (member : a ∈ as) : ∃ b ∈ bs, R a b := by
  induction related with
  | nil => cases member
  | @cons a' b' _ _ head _ ih =>
      rcases List.mem_cons.mp member with rfl | later
      · exact ⟨b', List.mem_cons_self, head⟩
      · obtain ⟨b, mem, partner⟩ := ih later
        exact ⟨b, List.mem_cons_of_mem _ mem, partner⟩

/-- The elements at one index are partners, or there are none. -/
theorem forall₂_getElem? {α β : Type} {R : α → β → Prop} {as : List α} {bs : List β}
    (related : List.Forall₂ R as bs) (i : Nat) :
    (∃ a b, as[i]? = some a ∧ bs[i]? = some b ∧ R a b) ∨ (as[i]? = none ∧ bs[i]? = none) := by
  induction related generalizing i with
  | nil => exact .inr ⟨rfl, rfl⟩
  | cons head _ ih =>
      cases i with
      | zero => exact .inl ⟨_, _, rfl, rfl, head⟩
      | succ i => exact ih i

theorem forall₂_and_mem {α β : Type} {R : α → β → Prop} {as : List α} {bs : List β}
    (related : List.Forall₂ R as bs) : List.Forall₂ (fun a b => b ∈ bs ∧ R a b) as bs :=
  ((List.forall₂_and_left _ _).mpr ⟨fun _ => id, related.flip⟩).flip

theorem forall₂_both {α β : Type} {R T : α → β → Prop} {as : List α} {bs : List β}
    (first : List.Forall₂ R as bs) (second : List.Forall₂ T as bs) :
    List.Forall₂ (fun a b => R a b ∧ T a b) as bs := by
  rw [List.forall₂_iff_zip] at *
  exact ⟨first.1, fun member => ⟨first.2 member, second.2 member⟩⟩

theorem any_width_eq {α β : Type} {width : α → Nat} {width' : β → Nat} {as : List α} {bs : List β}
    (same : List.Forall₂ (fun a b => width a = width' b) as bs) (n : Nat) :
    (as.any fun a => width a != n) = bs.any fun b => width' b != n := by
  induction same with
  | nil => rfl
  | cons head _ ih => rw [List.any_cons, List.any_cons, head, ih]

theorem forall₂_join {α β γ : Type} {R : α → γ → Prop} {Q : β → γ → Prop} {T : α → β → Prop}
    {as : List α} {bs : List β} {cs : List γ} (first : List.Forall₂ R as cs)
    (second : List.Forall₂ Q bs cs) (holds : ∀ a b c, R a c → Q b c → T a b) :
    List.Forall₂ T as bs := by
  induction first generalizing bs with
  | nil =>
      cases second with
      | nil => exact .nil
  | cons head _ ih =>
      cases second with
      | cons head' tail => exact .cons (holds _ _ _ head head') (ih tail)

theorem forall₂_set {α β : Type} {R : α → β → Prop} {as : List α} {bs : List β} {a : α} {b : β}
    (related : List.Forall₂ R as bs) (i : Nat) (both : R a b) :
    List.Forall₂ R (as.set i a) (bs.set i b) := by
  induction related generalizing i with
  | nil => exact .nil
  | cons head tail ih =>
      cases i with
      | zero => exact .cons both tail
      | succ i => exact .cons head (ih i)

theorem forall₂_concat_iff {α β : Type} {R : α → β → Prop} {as : List α} {bs : List β} {a : α}
    {b : β} : List.Forall₂ R (as ++ [a]) (bs ++ [b]) ↔ List.Forall₂ R as bs ∧ R a b := by
  rw [← List.forall₂_reverse_iff, List.reverse_concat, List.reverse_concat, List.forall₂_cons,
    List.forall₂_reverse_iff, and_comm]

theorem forall₂_zip {α β γ δ : Type} {R : α → γ → Prop} {T : β → δ → Prop} {as : List α}
    {bs : List β} {cs : List γ} {ds : List δ} (first : List.Forall₂ R as cs)
    (second : List.Forall₂ T bs ds) :
    List.Forall₂ (fun p q => R p.1 q.1 ∧ T p.2 q.2) (as.zip bs) (cs.zip ds) := by
  induction first generalizing bs ds with
  | nil => exact .nil
  | cons head _ ih =>
      cases second with
      | nil => exact .nil
      | cons head' tail' => exact .cons ⟨head, head'⟩ (ih tail')

theorem forall₂_zipIdx {α β : Type} {R : α → β → Prop} {as : List α} {bs : List β}
    (related : List.Forall₂ R as bs) :
    List.Forall₂ (fun p q => R p.1 q.1 ∧ p.2 = q.2) as.zipIdx bs.zipIdx := by
  rw [List.zipIdx_eq_zip_range', List.zipIdx_eq_zip_range', related.length_eq]
  exact forall₂_zip related (List.forall₂_same.mpr fun _ _ => rfl)

/-- The bits of the word stand for the lowest `width` digits of `n`. -/
def Word.Holds {C : Type} (reads : Bit C → Bool → Prop) (w : Word C) (width n : Nat) : Prop :=
  List.Forall₂ reads w.bits (binaryDigits width n)

namespace Word.Holds

variable {C S : Type} {reads : Bit C → Bool → Prop} {dry : S → Prop} {w : Word C}
  {width n m : Nat}

theorem width_eq (holds : w.Holds reads width n) : w.width = width := by
  rw [Word.width, holds.length_eq, length_binaryDigits]

/-- Only the number modulo the word's capacity counts. -/
theorem congr (holds : w.Holds reads width n) (same : n % 2 ^ width = m % 2 ^ width) :
    w.Holds reads width m := by
  rw [Word.Holds, ← binaryDigits_inj.mpr same]
  exact holds

theorem bit (holds : w.Holds reads width n) {i : Nat} (below : i < width) :
    Yields dry (liftM (w.bit i) : GateM S (Bit C)) (reads · (n.testBit i)) := by
  have bound : i < w.bits.length := by
    rw [holds.length_eq, length_binaryDigits]
    exact below
  have read := holds.get bound (by rw [length_binaryDigits]; exact below)
  refine .lift (a := w.bits[i]) ?_ ?_
  · rw [Word.bit, List.getElem?_eq_getElem bound]
  · simpa [binaryDigits] using read

theorem slice (holds : w.Holds reads width n) (first last : Nat) (ordered : first ≤ last)
    (within : last ≤ width) :
    Yields dry (liftM (w.slice first last) : GateM S (Word C))
      (·.Holds reads (last - first) (n / 2 ^ first)) := by
  refine .lift (a := ⟨(w.bits.take last).drop first⟩) ?_ ?_
  · rw [Word.slice, if_pos ⟨ordered, by rw [holds.width_eq]; exact within⟩]
  · rw [Word.Holds, ← drop_binaryDigits, ← take_binaryDigits n within]
    exact List.forall₂_drop first (List.forall₂_take last holds)

/-- The lowest bits hold the same number. -/
theorem low (holds : w.Holds reads width n) (count : Nat) (within : count ≤ width) :
    Yields dry (liftM (w.slice 0 count) : GateM S (Word C)) (·.Holds reads count n) := by
  simpa using holds.slice 0 count (Nat.zero_le count) within

theorem withLowBits {low : Word C} (holds : w.Holds reads width n) {lowWidth : Nat}
    (lowHolds : low.Holds reads lowWidth m) (within : lowWidth ≤ width) :
    Yields dry (liftM (w.withLowBits low) : GateM S (Word C))
      (·.Holds reads width (m % 2 ^ lowWidth + 2 ^ lowWidth * (n / 2 ^ lowWidth))) := by
  refine .lift (a := ⟨low.bits ++ w.bits.drop low.width⟩) ?_ ?_
  · rw [Word.withLowBits, if_pos (by rw [holds.width_eq, lowHolds.width_eq]; exact within)]
  · have split := binaryDigits_append lowWidth (width - lowWidth) m (n / 2 ^ lowWidth)
    rw [Nat.add_sub_cancel' within] at split
    rw [Word.Holds, split, lowHolds.width_eq, ← drop_binaryDigits]
    exact List.rel_append lowHolds (List.forall₂_drop lowWidth holds)

theorem rotateLeft {carry : Bit C} {x : Bool} (holds : w.Holds reads (width + 1) n)
    (hc : reads carry x) :
    (w.rotateLeft carry).1.Holds reads (width + 1) (x.toNat + 2 * n) ∧
      reads (w.rotateLeft carry).2 (n.testBit width) := by
  obtain ⟨bits⟩ := w
  rw [Word.Holds, binaryDigits_succ_last] at holds
  obtain rfl | ⟨rest, top, rfl⟩ := List.eq_nil_or_concat' bits
  · have length := holds.length_eq
    simp at length
  · obtain ⟨hrest, htop⟩ := forall₂_concat_iff.mp holds
    rw [Word.rotateLeft, List.getLast?_concat, List.dropLast_concat]
    refine ⟨?_, htop⟩
    rw [Word.Holds, binaryDigits_double]
    exact .cons hc hrest

theorem rotateRight {carry : Bit C} {x : Bool} (holds : w.Holds reads (width + 1) n)
    (hc : reads carry x) :
    (w.rotateRight carry).1.Holds reads (width + 1) (n / 2 % 2 ^ width + 2 ^ width * x.toNat) ∧
      reads (w.rotateRight carry).2 (n.testBit 0) := by
  obtain ⟨bits⟩ := w
  rw [Word.Holds, binaryDigits_succ] at holds
  obtain _ | @⟨bottom, _, rest, _, hbottom, hrest⟩ := holds
  refine ⟨?_, hbottom⟩
  rw [Word.Holds, binaryDigits_append]
  refine List.rel_append hrest ?_
  have single : binaryDigits 1 x.toNat = [x] := by cases x <;> rfl
  rw [single]
  exact .cons hc .nil

end Word.Holds

section

variable {C S : Type} {reads : Bit C → Bool → Prop} {dry : S → Prop}

/-- A loop over the bits of two words of one width, and the number whose digits it computes. -/
theorem bitwise_yields {combine : Bit C → Bit C → GateM S (Bit C)} {op : Bool → Bool → Bool}
    (law : ∀ {a b x y}, reads a x → reads b y → (combine a b).Yields dry (reads · (op x y)))
    {left right : Word C} {width m n k : Nat} (hl : left.Holds reads width m)
    (hr : right.Holds reads width n)
    (digits : ∀ i, k.testBit i = op (m.testBit i) (n.testBit i)) :
    Yields dry ((left.bits.zip right.bits).mapM fun p => combine p.1 p.2)
      (List.Forall₂ reads · (binaryDigits width k)) := by
  have result : binaryDigits width k =
      ((binaryDigits width m).zip (binaryDigits width n)).map fun p => op p.1 p.2 := by
    rw [binaryDigits, binaryDigits, binaryDigits, List.zip_map', List.map_map]
    exact List.map_congr_left fun i _ => digits i
  refine (Yields.mapM (forall₂_zip hl hr)
    (T := fun c p => reads c (op p.1 p.2)) fun p q hp => law hp.1 hp.2).mono fun out answer => ?_
  rw [result, List.forall₂_map_right_iff]
  exact answer

theorem Gates.encryptWord_yields {G : Gates C S}
    (encrypts : ∀ x, (G.encrypt x).Yields dry (reads · x)) (value : Nat) {width : Nat}
    (narrow : width ≤ 64) : (G.encryptWord value width).Yields dry (·.Holds reads width value) := by
  unfold Gates.encryptWord
  apply Yields.guarded (Nat.not_lt.mpr narrow)
  refine (Yields.mapM_mem fun i _ => encrypts (value.testBit i)).bind fun bits answer => .pure ?_
  rw [Word.Holds, binaryDigits, List.forall₂_map_right_iff]
  exact answer

theorem Gates.Homomorphic.encryptWord {G : Gates C S} (hom : G.Homomorphic reads dry)
    (value : Nat) {width : Nat} (narrow : width ≤ 64) :
    (G.encryptWord value width).Yields dry (·.Holds reads width value) :=
  encryptWord_yields hom.encrypt value narrow

end

section

variable {C S : Type}

/-- The reading that says nothing of bits. What it says of words is their width. -/
abbrev anyBit : Bit C → Bool → Prop := Gates.reading fun _ _ _ => True

theorem Word.holds_anyBit_iff {w : Word C} {width n : Nat} :
    w.Holds anyBit width n ↔ w.width = width := by
  constructor
  · exact Word.Holds.width_eq
  · intro same
    apply List.forall₂_iff_get.mpr
    exact ⟨same.trans (length_binaryDigits width n).symm, fun _ _ _ => trivial⟩

theorem Scheme.preserves_anyBit (scheme : Scheme C S) :
    scheme.Preserves (fun _ _ _ => True) scheme.Dry :=
  scheme.preserves_estimates (W := fun _ => True) trivial (fun _ _ => trivial)
    fun _ _ _ _ _ _ => trivial

theorem Gates.homomorphic_anyBit (G : Gates C S) : G.Homomorphic anyBit G.scheme.Dry :=
  homomorphic G.scheme.preserves_anyBit

end

end CipherMachine
