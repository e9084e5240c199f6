import CipherMachine.Proofs.Text.Numerals
import Mathlib.Data.Nat.Digits.Defs

set_option autoImplicit false

/-!
Numbers as tokens: which tokens denote a number, and what a word is read from.

`NumberToken` is the grammar of these tokens with the positional value of their digits. It is said
without reading, so it bounds neither the zeros in front nor the value.
-/

namespace CipherMachine

namespace Text

/-- A digit of a base and its value. Letters stand for ten and more, in either case. -/
def Digit (base : Nat) (c : Char) (value : Nat) : Prop :=
  value < base ∧ c.toLower = Nat.digitChar value

/-- One or more digits, of which the first counts most, and the number that they stand for. -/
def Digits (base n : Nat) (text : List Char) : Prop :=
  text ≠ [] ∧ ∃ values, List.Forall₂ (Digit base) text values ∧ n = Nat.ofDigits base values.reverse

/-- Digits, or a plus sign and digits. -/
def Unsigned (base n : Nat) (text : List Char) : Prop :=
  Digits base n text ∨ ∃ digits, text = '+' :: digits ∧ Digits base n digits

/-- The tokens that denote a number: in base ten, or in base sixteen behind its mark. -/
inductive NumberToken (n : Nat) : List Char → Prop
  | decimal {text : List Char} (number : Unsigned 10 n text) : NumberToken n text
  | hexadecimal {mark : Char} {text : List Char} (marks : mark = 'x' ∨ mark = 'X')
      (number : Unsigned 16 n text) : NumberToken n ('0' :: mark :: text)

theorem toNat_digitChar {value : Nat} (small : value < 16) :
    (Nat.digitChar value).toNat = if value < 10 then 48 + value else 87 + value := by
  revert value
  decide

theorem digitValue?_eq_some_iff {c : Char} {value : Nat} :
    digitValue? c = some value ↔ Digit 16 c value := by
  constructor
  · intro read
    rw [digitValue?_eq] at read
    have small : value < 16 := by grind
    have lower : c.toLower.toNat = (Nat.digitChar value).toNat := by
      rw [toNat_toLower, toNat_digitChar small]
      grind
    exact ⟨small, Char.toNat_inj.mp lower⟩
  · rintro ⟨small, lower⟩
    rw [← digitValue?_toLower, lower, digitValue?_digitChar small]

theorem digitOf?_iff {base value : Nat} (small : base ≤ 16) {c : Char} :
    digitOf? base c = some value ↔ Digit base c value := by
  rw [digitOf?_eq_some_iff, digitValue?_eq_some_iff, Digit, Digit]
  constructor
  · rintro ⟨⟨_, lower⟩, below⟩
    exact ⟨below, lower⟩
  · rintro ⟨below, lower⟩
    exact ⟨⟨by omega, lower⟩, below⟩

theorem not_digit {base : Nat} (small : base ≤ 16) {c : Char} (no_value : digitValue? c = none)
    (value : Nat) : ¬ Digit base c value := by
  simp [← digitOf?_iff small, digitOf?, no_value]

variable {base n : Nat} {text : List Char}

/-- A digit more multiplies what is before it by the base. -/
theorem places_cons (base value digit : Nat) (values : List Nat) :
    (value * base + digit) * base ^ values.length + Nat.ofDigits base values.reverse =
      value * base ^ (digit :: values).length + Nat.ofDigits base (digit :: values).reverse := by
  rw [Nat.ofDigits_reverse_cons, List.length_cons, Nat.pow_succ']
  ring

/-- Digits are appended by their places. The induction is on the digits that are left. -/
theorem appendDigits?_eq_some_iff (small : base ≤ 16) {value : Nat} :
    appendDigits? base value text = some n ↔ ∃ values, List.Forall₂ (Digit base) text values ∧
      n = value * base ^ values.length + Nat.ofDigits base values.reverse := by
  induction text generalizing value with
  | nil => simp [appendDigits?, eq_comm]
  | cons c rest ih =>
      rw [appendDigits?]
      cases here : digitOf? base c with
      | none =>
          have no_digit : ∀ digit, ¬ Digit base c digit := by
            intro digit
            simp [← digitOf?_iff small, here]
          simp [List.forall₂_cons_left_iff, no_digit]
      | some digit =>
          have only : ∀ digit', Digit base c digit' ↔ digit' = digit := by
            intro digit'
            simp [← digitOf?_iff small, here, eq_comm]
          simp [ih, List.forall₂_cons_left_iff, only, places_cons]

/-- The empty text is the only one whose digits can be appended and that is no number. -/
theorem digits?_of_ne_nil (some_digit : text ≠ []) :
    digits? base text = appendDigits? base 0 text := by
  cases text with
  | nil => contradiction
  | cons c rest => rfl

theorem digits?_eq_some_iff (small : base ≤ 16) :
    digits? base text = some n ↔ Digits base n text := by
  by_cases empty : text = []
  · simp [empty, digits?, Digits]
  · simp [digits?_of_ne_nil empty, appendDigits?_eq_some_iff small, Digits, empty]

theorem Digits.digit_of_mem (digits : Digits base n text) {c : Char} (member : c ∈ text) :
    ∃ value, Digit base c value := by
  obtain ⟨_, values, valued, _⟩ := digits
  obtain ⟨i, below, rfl⟩ := List.getElem_of_mem member
  exact ⟨_, (List.forall₂_iff_get.mp valued).2 i below (valued.length_eq ▸ below)⟩

/-- A character that is no digit stands nowhere but in place of the sign. -/
theorem Unsigned.digit_of_mem (number : Unsigned base n text) {c : Char} (member : c ∈ text)
    (no_sign : c ≠ '+') : ∃ value, Digit base c value := by
  rcases number with digits | ⟨digits, rfl, number⟩
  · exact digits.digit_of_mem member
  · exact number.digit_of_mem ((List.mem_cons.mp member).resolve_left no_sign)

theorem unsigned?_eq_some_iff (small : base ≤ 16) :
    unsigned? base text = some n ↔ Unsigned base n text := by
  unfold unsigned?
  split
  next digits =>
    have no_digits : ¬ Digits base n ('+' :: digits) := by
      intro read
      obtain ⟨value, digit⟩ := read.digit_of_mem List.mem_cons_self
      exact not_digit small rfl value digit
    simp [Unsigned, no_digits, digits?_eq_some_iff small]
  next no_sign =>
    have unsigned : ∀ digits, text ≠ '+' :: digits := no_sign
    simp [Unsigned, unsigned, digits?_eq_some_iff small]

theorem unsignedBelow?_eq_some_iff (small : base ≤ 16) {bits : Nat} :
    unsignedBelow? bits base text = some n ↔ Unsigned base n text ∧ n < 2 ^ bits := by
  simp [unsignedBelow?, Option.filter_eq_some_iff, unsigned?_eq_some_iff small]

/-- Appends digits to a number, and gives up at the first one that takes it to the limit. -/
def appendDigitsBelow? (limit base : Nat) : Nat → List Char → Option Nat
  | value, [] => some value
  | value, c :: rest =>
    match digitOf? base c with
    | some digit =>
      if value * base + digit < limit then
        appendDigitsBelow? limit base (value * base + digit) rest
      else none
    | none => none

theorem le_of_appendDigits? (positive : 0 < base) {value : Nat}
    (read : appendDigits? base value text = some n) : value ≤ n := by
  induction text generalizing value with
  | nil => simp_all [appendDigits?]
  | cons c rest ih =>
      rw [appendDigits?] at read
      cases here : digitOf? base c with
      | none => simp [here] at read
      | some digit =>
          rw [here] at read
          have more : value ≤ value * base := Nat.le_mul_of_pos_right value positive
          have rest_more := ih read
          omega

/-- The limit may be checked at every digit, as in arithmetic on words, without reading on: a number
that has reached it stays there, and zeros in front never do. -/
theorem appendDigitsBelow?_eq (positive : 0 < base) {limit value : Nat} (below : value < limit) :
    appendDigitsBelow? limit base value text =
      (appendDigits? base value text).filter (· < limit) := by
  induction text generalizing value with
  | nil =>
      simp only [appendDigitsBelow?, appendDigits?, Option.filter_some, below, decide_true,
        ↓reduceIte]
  | cons c rest ih =>
      rw [appendDigitsBelow?, appendDigits?]
      cases digitOf? base c with
      | none => rfl
      | some digit =>
          by_cases next : value * base + digit < limit
          · simp only [next, ↓reduceIte, ih next]
          · have large : (appendDigits? base (value * base + digit) rest).filter (· < limit) =
                none := by
              rw [Option.filter_eq_none_iff]
              intro n read
              have more := le_of_appendDigits? positive read
              simp only [decide_eq_true_eq]
              omega
            simp only [next, ↓reduceIte, large]

/-- No number in base ten holds the mark of base sixteen. -/
theorem Unsigned.no_mark (number : Unsigned 10 n text) {mark : Char}
    (marks : mark = 'x' ∨ mark = 'X') : mark ∉ text := by
  intro member
  have no_value : digitValue? mark = none := by rcases marks with rfl | rfl <;> rfl
  have no_sign : mark ≠ '+' := by rcases marks with rfl | rfl <;> decide
  obtain ⟨value, digit⟩ := number.digit_of_mem member no_sign
  exact not_digit (by decide) no_value value digit

theorem numberToken_marked {mark : Char} (marks : mark = 'x' ∨ mark = 'X') :
    NumberToken n ('0' :: mark :: text) ↔ Unsigned 16 n text := by
  constructor
  · intro token
    cases token with
    | decimal number => exact absurd (by simp) (number.no_mark marks)
    | hexadecimal _ number => exact number
  · exact .hexadecimal marks

theorem numberToken_unmarked (unmarked : ∀ mark rest, mark = 'x' ∨ mark = 'X' →
    text ≠ '0' :: mark :: rest) : NumberToken n text ↔ Unsigned 10 n text := by
  constructor
  · intro token
    cases token with
    | decimal number => exact number
    | hexadecimal marks => exact absurd rfl (unmarked _ _ marks)
  · exact .decimal

end Text

namespace Image

open Text

theorem numeral?_eq_some_iff {n : Nat} {token : List Char} :
    numeral? token = some n ↔ NumberToken n token ∧ n < 2 ^ 64 := by
  unfold numeral?
  split
  next digits => rw [numberToken_marked (.inl rfl), unsignedBelow?_eq_some_iff (by decide)]
  next digits => rw [numberToken_marked (.inr rfl), unsignedBelow?_eq_some_iff (by decide)]
  next lower upper =>
    rw [numberToken_unmarked, unsignedBelow?_eq_some_iff (by decide)]
    rintro mark rest (rfl | rfl) rfl
    · exact lower rest rfl
    · exact upper rest rfl

variable {token : List Char}

theorem readWord_eq_ok_iff {word : UInt16} :
    readWord token = .ok word ↔ numeral? token = some word.toNat := by
  unfold readWord
  cases numeral? token with
  | none => simp
  | some value =>
      by_cases small : value < UInt16.size
      · have same : (UInt16.ofNat value).toNat = value := Nat.mod_eq_of_lt small
        simp [small, ← UInt16.toNat_inj, same]
      · have large : value ≠ word.toNat := fun same => small (same ▸ word.toNat_lt)
        simp [small, large]

theorem readWord_eq_outOfRange_iff {value : Nat} :
    readWord token = .error (.outOfRange value) ↔
      numeral? token = some value ∧ 65535 < value := by
  unfold readWord
  cases numeral? token with
  | none => simp
  | some value' =>
      by_cases small : value' < UInt16.size
      · simp only [small, ↓reduceIte, reduceCtorEq, Option.some.injEq, false_iff, not_and]
        rintro rfl
        exact Nat.not_lt.mpr (Nat.le_of_lt_succ small)
      · simp only [small, ↓reduceIte, Except.error.injEq, LineFault.outOfRange.injEq,
          Option.some.injEq, iff_self_and]
        rintro rfl
        exact Nat.lt_of_succ_le (Nat.not_lt.mp small)

theorem readWord_eq_invalidNumber_iff {text : String} :
    readWord token = .error (.invalidNumber text) ↔
      text = String.ofList token ∧ numeral? token = none := by
  unfold readWord
  cases numeral? token with
  | none => simp [eq_comm]
  | some value => by_cases small : value < UInt16.size <;> simp [small]

/-- What stands in front of the mark is at most a zero. -/
theorem not_numberToken_of_front {front mark : Char} {rest : List Char}
    (marks : mark = 'x' ∨ mark = 'X') (n : Nat) :
    ¬ NumberToken n (front :: '0' :: mark :: rest) := by
  intro number
  cases number with
  | decimal number => exact number.no_mark marks (by simp)
  | hexadecimal marks => simp at marks

/-- A token is read as a word if and only if it denotes the number of the word. A token that denotes
a number of more than 16 bits and at most 64 is refused with its value, and every other token as it
stands, whether it denotes a number of more than 64 bits or none. The mark of base sixteen stands
before the sign, not behind it. Digits that are read one at a time in 64 bits overflow if and only
if the number has more than these, however many zeros it begins with. -/
theorem readWord_exact (token : List Char) :
    (∀ word, readWord token = .ok word ↔ NumberToken word.toNat token) ∧
    (∀ value, readWord token = .error (.outOfRange value) ↔
      NumberToken value token ∧ 65535 < value ∧ value < 2 ^ 64) ∧
    (∀ text, readWord token = .error (.invalidNumber text) ↔
      text = String.ofList token ∧ ∀ value, NumberToken value token → 2 ^ 64 ≤ value) ∧
    (∀ sign mark rest, mark = 'x' ∨ mark = 'X' → token = sign :: '0' :: mark :: rest →
      readWord token = .error (.invalidNumber (String.ofList token))) ∧
    ∀ base digits, 0 < base → appendDigitsBelow? (2 ^ 64) base 0 digits =
      (appendDigits? base 0 digits).filter (· < 2 ^ 64) := by
  have invalid : ∀ text, readWord token = .error (.invalidNumber text) ↔
      text = String.ofList token ∧ ∀ value, NumberToken value token → 2 ^ 64 ≤ value := by
    intro text
    rw [readWord_eq_invalidNumber_iff, Option.eq_none_iff_forall_ne_some]
    simp only [ne_eq, numeral?_eq_some_iff, not_and, Nat.not_lt]
  refine ⟨fun word => ?_, fun value => ?_, invalid, ?_, ?_⟩
  · have small : word.toNat < 2 ^ 64 := Nat.lt_trans word.toNat_lt (by decide)
    rw [readWord_eq_ok_iff, numeral?_eq_some_iff, and_iff_left small]
  · rw [readWord_eq_outOfRange_iff, numeral?_eq_some_iff, and_right_comm, and_assoc]
  · rintro sign mark rest marks rfl
    rw [invalid]
    exact ⟨rfl, fun value number => absurd number (not_numberToken_of_front marks value)⟩
  · exact fun base digits positive => appendDigitsBelow?_eq positive (by decide)

/-- Zeros in front of the largest word, and a sign before the mark. -/
theorem readWord_exact_signs :
    readWord "0X+000000000000000000000000ffFF".toList = .ok 65535 ∧
      readWord "+0x1".toList = .error (.invalidNumber "+0x1") := by
  constructor
  · apply ((readWord_exact _).1 65535).mpr
    exact (numeral?_eq_some_iff.mp (by decide)).1
  · exact (readWord_exact _).2.2.2.1 '+' 'x' ['1'] (.inl rfl) rfl

end Image

end CipherMachine
