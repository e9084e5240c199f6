import CipherMachine.Proofs.Text.Lines
import Mathlib.Algebra.Group.Nat.Defs

set_option autoImplicit false

/-!
Written numbers: in base ten, or in base sixteen behind its mark and with letters of either case,
and with any number of zeros in front.

Whatever way a number below `2 ^ 64` is written, it is read back.
-/

namespace CipherMachine.Text

inductive Numeral (n : Nat) : List Char → Prop
  | decimal (zeros : Nat) : Numeral n (List.replicate zeros '0' ++ Nat.toDigits 10 n)
  | hexadecimal (zeros : Nat) {mark : Char} {letters : List Char}
      (marks : mark = 'x' ∨ mark = 'X') (digits : letters.map Char.toLower = Nat.toDigits 16 n) :
      Numeral n ('0' :: mark :: (List.replicate zeros '0' ++ letters))

theorem char_le_iff (c d : Char) : c ≤ d ↔ c.toNat ≤ d.toNat := Iff.rfl

theorem toNat_toLower (c : Char) :
    c.toLower.toNat = if 65 ≤ c.toNat ∧ c.toNat ≤ 90 then c.toNat + 32 else c.toNat := by
  have bound := c.val.toNat_lt
  unfold Char.toLower
  by_cases upper : 65 ≤ c.toNat ∧ c.toNat ≤ 90
  · have inside : c.val ≥ 'A'.val ∧ c.val ≤ 'Z'.val := upper
    rw [if_pos upper, dif_pos inside]
    change (c.val + ('a'.val - 'A'.val)).toNat = c.val.toNat + 32
    rw [UInt32.toNat_add]
    change (c.val.toNat + 32) % 2 ^ 32 = _
    have below : c.val.toNat ≤ 90 := upper.2
    omega
  · have outside : ¬ (c.val ≥ 'A'.val ∧ c.val ≤ 'Z'.val) := upper
    rw [if_neg upper, dif_neg outside]

theorem digitValue?_eq (c : Char) : digitValue? c =
    if 48 ≤ c.toNat ∧ c.toNat ≤ 57 then some (c.toNat - 48)
    else if 97 ≤ c.toNat ∧ c.toNat ≤ 102 then some (c.toNat - 97 + 10)
    else if 65 ≤ c.toNat ∧ c.toNat ≤ 70 then some (c.toNat - 65 + 10)
    else none := by
  unfold digitValue?
  simp only [char_le_iff]
  rfl

theorem digitValue?_toLower (c : Char) : digitValue? c.toLower = digitValue? c := by
  rw [digitValue?_eq, digitValue?_eq, toNat_toLower]
  grind

theorem digitValue?_blank {c : Char} (blank : isBlank c = true) : digitValue? c = none := by
  simp only [isBlank, blankRanges, List.any_cons, List.any_nil, Bool.or_eq_true,
    Bool.and_eq_true, decide_eq_true_eq, Bool.false_eq_true, or_false] at blank
  rw [digitValue?_eq]
  grind

theorem digitValue?_digitChar {digit : Nat} (small : digit < 16) :
    digitValue? (Nat.digitChar digit) = some digit := by
  revert digit
  decide

theorem digitOf?_eq_some_iff {base digit : Nat} {c : Char} :
    digitOf? base c = some digit ↔ digitValue? c = some digit ∧ digit < base := by
  simp [digitOf?, Option.filter_eq_some_iff]

theorem appendDigits?_append (base value : Nat) (first rest : List Char) :
    appendDigits? base value (first ++ rest) =
      (appendDigits? base value first).bind (appendDigits? base · rest) := by
  induction first generalizing value with
  | nil => rfl
  | cons c first ih =>
      rw [List.cons_append, appendDigits?, appendDigits?]
      cases digitOf? base c with
      | none => rfl
      | some digit => exact ih _

/-- Only the values of digits count. -/
theorem appendDigits?_congr {base : Nat} {digits digits' : List Char}
    (same : digits.map digitValue? = digits'.map digitValue?) (value : Nat) :
    appendDigits? base value digits = appendDigits? base value digits' := by
  induction digits generalizing digits' value with
  | nil =>
      rw [List.map_nil, eq_comm, List.map_eq_nil_iff] at same
      rw [same]
  | cons c rest ih =>
      obtain ⟨c', rest', rfl, here, others⟩ := List.map_eq_cons_iff.mp same.symm
      rw [appendDigits?, appendDigits?, digitOf?, digitOf?, here]
      cases (digitValue? c).filter (· < base) with
      | none => rfl
      | some digit => exact ih others.symm _

theorem appendDigits?_zeros {base : Nat} (positive : 0 < base) (zeros : Nat) :
    appendDigits? base 0 (List.replicate zeros '0') = some 0 := by
  induction zeros with
  | zero => rfl
  | succ zeros ih =>
      have zero : digitOf? base '0' = some 0 := digitOf?_eq_some_iff.mpr ⟨rfl, positive⟩
      rw [List.replicate_succ, appendDigits?, zero]
      exact (congrArg (appendDigits? base · _) (Nat.zero_mul base)).trans ih

/-- The digits of a number are read as the number. The induction is on the number without its last
digit. -/
theorem appendDigits?_toDigits {base : Nat} (large : 1 < base) (small : base ≤ 16) (n : Nat) :
    appendDigits? base 0 (Nat.toDigits base n) = some n := by
  have digit : ∀ d < base, digitOf? base (Nat.digitChar d) = some d := fun d below =>
    digitOf?_eq_some_iff.mpr ⟨digitValue?_digitChar (Nat.lt_of_lt_of_le below small), below⟩
  induction n using Nat.strongRecOn with
  | ind n ih =>
      by_cases single : n < base
      · rw [Nat.toDigits_of_lt_base single, appendDigits?, digit n single]
        change some (0 * base + n) = some n
        rw [Nat.zero_mul, Nat.zero_add]
      · have more : base ≤ n := Nat.not_lt.mp single
        have fewer : n / base < n := Nat.div_lt_self (by omega) large
        have last := digit (n % base) (Nat.mod_lt n (by omega))
        rw [Nat.toDigits_of_base_le large more, appendDigits?_append, ih _ fewer, Option.bind_some,
          appendDigits?, last]
        exact congrArg some (Nat.div_add_mod' n base)

theorem map_digitValue?_of_toLower {letters digits : List Char}
    (lower : letters.map Char.toLower = digits) :
    letters.map digitValue? = digits.map digitValue? := by
  rw [← lower, List.map_map]
  exact List.map_congr_left fun c _ => (digitValue?_toLower c).symm

/-- Zeros in front of the digits of a number count for nothing. -/
theorem appendDigits?_written {base : Nat} (large : 1 < base) (small : base ≤ 16) (zeros n : Nat)
    {letters : List Char} (same : letters.map digitValue? = (Nat.toDigits base n).map digitValue?) :
    appendDigits? base 0 (List.replicate zeros '0' ++ letters) = some n := by
  rw [appendDigits?_append, appendDigits?_zeros (Nat.zero_lt_of_lt large), Option.bind_some,
    appendDigits?_congr same, appendDigits?_toDigits large small]

/-- What can be read as digits begins with no sign. -/
theorem unsignedBelow?_eq {bits base n : Nat} {digits : List Char} (some_digit : digits ≠ [])
    (read : appendDigits? base 0 digits = some n) (below : n < 2 ^ bits) :
    unsignedBelow? bits base digits = some n := by
  have unsigned : unsigned? base digits = some n := by
    unfold unsigned?
    split
    · cases read
    · cases digits with
      | nil => contradiction
      | cons c rest => exact read
  rw [unsignedBelow?, unsigned, Option.filter_some, if_pos]
  exact decide_eq_true below

/-- The digits of a numeral are read as its number, which its base tells. -/
theorem Numeral.read {n : Nat} {token : List Char} (numeral : Numeral n token) :
    (token ≠ [] ∧ appendDigits? 10 0 token = some n) ∨
      ∃ mark digits, (mark = 'x' ∨ mark = 'X') ∧ token = '0' :: mark :: digits ∧ digits ≠ [] ∧
        appendDigits? 16 0 digits = some n := by
  cases numeral with
  | decimal zeros =>
      refine .inl ⟨?_, appendDigits?_written (by decide) (by decide) zeros n rfl⟩
      simp [Nat.toDigits_ne_nil]
  | @hexadecimal zeros mark letters marks digits =>
      have read := appendDigits?_written (by decide) (Nat.le_refl 16) zeros n
        (map_digitValue?_of_toLower digits)
      refine .inr ⟨mark, _, marks, rfl, ?_, read⟩
      rintro empty
      obtain ⟨_, rfl⟩ := List.append_eq_nil_iff.mp empty
      exact Nat.toDigits_ne_nil digits.symm

/-- A number below `2 ^ 64` is read however it is written. -/
theorem Numeral.numeral?_eq {n : Nat} {token : List Char} (numeral : Numeral n token)
    (below : n < 2 ^ 64) : Image.numeral? token = some n := by
  rcases numeral.read with ⟨some_digit, read⟩ | ⟨mark, digits, marks, rfl, some_digit, read⟩
  · have value := unsignedBelow?_eq some_digit read below
    unfold Image.numeral?
    split
    -- The mark of base sixteen is no digit of base ten.
    · cases read
    · cases read
    · exact value
  · have value := unsignedBelow?_eq some_digit read below
    rcases marks with rfl | rfl
    · exact value
    · exact value

theorem digitValue?_of_appendDigits? {base value n : Nat} {digits : List Char}
    (read : appendDigits? base value digits = some n) : ∀ c ∈ digits, digitValue? c ≠ none := by
  induction digits generalizing value with
  | nil => exact fun c absent => nomatch absent
  | cons c rest ih =>
      rw [appendDigits?] at read
      cases here : digitOf? base c with
      | none =>
          rw [here] at read
          cases read
      | some digit =>
          rw [here] at read
          have digital : digitValue? c ≠ none := by
            rw [(digitOf?_eq_some_iff.mp here).1]
            exact Option.some_ne_none digit
          exact List.forall_mem_cons.mpr ⟨digital, ih read⟩

theorem Numeral.ne_nil {n : Nat} {token : List Char} (numeral : Numeral n token) : token ≠ [] := by
  rcases numeral.read with ⟨some_digit, _⟩ | ⟨mark, digits, _, rfl, _⟩
  · exact some_digit
  · exact List.cons_ne_nil _ _

/-- A character that is no digit and no mark of base sixteen is in no numeral. -/
theorem Numeral.not_mem {n : Nat} {token : List Char} (numeral : Numeral n token) {c : Char}
    (no_digit : digitValue? c = none) (no_mark : c ≠ 'x' ∧ c ≠ 'X') : c ∉ token := by
  rcases numeral.read with ⟨_, read⟩ | ⟨mark, digits, marks, rfl, _, read⟩
  · exact fun member => digitValue?_of_appendDigits? read c member no_digit
  · rw [List.mem_cons, List.mem_cons]
    rintro (rfl | rfl | member)
    · cases no_digit
    · exact marks.elim no_mark.1 no_mark.2
    · exact digitValue?_of_appendDigits? read c member no_digit

theorem Numeral.no_blank {n : Nat} {token : List Char} (numeral : Numeral n token) :
    token.any isBlank = false := by
  rw [List.any_eq_false]
  intro c member blank
  refine numeral.not_mem (digitValue?_blank blank) ⟨?_, ?_⟩ member
  · rintro rfl
    cases blank
  · rintro rfl
    cases blank

end CipherMachine.Text
