import CipherMachine.Listing
import CipherMachine.Proofs.Image.Numbers
import CipherMachine.Proofs.Text.Lines
import Mathlib.Data.List.TakeWhile

set_option autoImplicit false

/-!
Listings of memory are read back: the numbers behind the colons of their lines are the words, in
their order, and the numbers in front are the addresses.
-/

namespace CipherMachine

namespace Text

theorem toList_hex (width n : Nat) : (hex width n).toList =
    List.replicate (width - (Nat.toDigits 16 n).length) '0' ++ Nat.toDigits 16 n := by
  rw [hex, String.toList_ofList, List.leftpad]

theorem hex_ne_nil (width n : Nat) : (hex width n).toList ≠ [] := by
  simp [toList_hex, Nat.toDigits_ne_nil]

theorem le_length_hex (width n : Nat) : width ≤ (hex width n).toList.length := by
  rw [toList_hex, List.length_append, List.length_replicate]
  omega

theorem appendDigits?_hex (width n : Nat) :
    appendDigits? 16 0 (hex width n).toList = some n := by
  rw [toList_hex]
  exact appendDigits?_written (by decide) (Nat.le_refl 16) _ n rfl

theorem digits?_hex (width n : Nat) : digits? 16 (hex width n).toList = some n := by
  rw [digits?_of_ne_nil (hex_ne_nil width n), appendDigits?_hex]

theorem not_mem_hex (width n : Nat) {c : Char} (no_digit : digitValue? c = none) :
    c ∉ (hex width n).toList := fun member =>
  digitValue?_of_appendDigits? (appendDigits?_hex width n) c member no_digit

theorem hex_no_blank (width n : Nat) : (hex width n).toList.any isBlank = false := by
  rw [List.any_eq_false]
  intro c member blank
  exact not_mem_hex width n (digitValue?_blank blank) member

theorem tokens_hex (width n : Nat) : tokens (hex width n).toList = [(hex width n).toList] :=
  tokens_single (hex_ne_nil width n) (hex_no_blank width n)

/-- What stands behind the first colon of a line; nothing if there is none. -/
def afterColon (line : List Char) : List Char := (line.dropWhile (· != ':')).tail

theorem all_ne_colon {line : List Char} (plain : ':' ∉ line) : ∀ c ∈ line, (c != ':') = true := by
  intro c member
  simpa using ne_of_mem_of_not_mem member plain

theorem afterColon_append {front : List Char} (plain : ':' ∉ front) (rest : List Char) :
    afterColon (front ++ ':' :: rest) = rest := by
  rw [afterColon, List.dropWhile_append_of_pos (all_ne_colon plain)]
  rfl

theorem afterColon_of_not_mem {line : List Char} (plain : ':' ∉ line) : afterColon line = [] := by
  rw [afterColon, List.dropWhile_eq_nil_iff.mpr (all_ne_colon plain), List.tail_nil]

/-- The tokens behind the first colon of a line as numbers in base sixteen. -/
def numbers (line : List Char) : List (Option Nat) := (tokens (afterColon line)).map (digits? 16)

def allNumbers (text : List Char) : List (Option Nat) := (rows text).flatMap numbers

theorem allNumbers_lines {lines : List (List Char)} (single : ∀ line ∈ lines, '\n' ∉ line) :
    allNumbers (lines.flatMap (· ++ ['\n'])) = lines.flatMap numbers := by
  simp [allNumbers, rows_flatMap single, show numbers [] = [] from rfl]

end Text

namespace Listing

open Text

def row (address : Nat) (words : List UInt16) : List Char :=
  (hex 4 address).toList ++ ':' :: words.flatMap fun word => ' ' :: (hex 4 word.toNat).toList

theorem toList_line (address : Nat) (words : List UInt16) :
    (line address words).toList = row address words ++ ['\n'] := by
  simp [line, row, String.toList_join, List.flatMap_map]

theorem row_single (address : Nat) (words : List UInt16) : '\n' ∉ row address words := by
  have plain : ∀ n, '\n' ∉ (hex 4 n).toList := fun n => not_mem_hex 4 n rfl
  simp [row, plain]

/-- The induction is on the words, each of which a blank parts from what is before it. -/
theorem tokens_words (line : List Char) (words : List UInt16) :
    tokens (line ++ words.flatMap fun word => ' ' :: (hex 4 word.toNat).toList) =
      tokens line ++ words.map fun word => (hex 4 word.toNat).toList := by
  induction words generalizing line with
  | nil => simp
  | cons word rest ih =>
      rw [List.flatMap_cons, List.cons_append, tokens_append_cons line _ (by decide), ih,
        tokens_hex, List.map_cons, List.singleton_append]

theorem numbers_row (address : Nat) (words : List UInt16) :
    numbers (row address words) = words.map fun word => some word.toNat := by
  have behind := tokens_words [] words
  rw [List.nil_append, show tokens [] = [] from rfl, List.nil_append] at behind
  rw [numbers, row, afterColon_append (not_mem_hex 4 address rfl), behind]
  simp [digits?_hex]

/-- Lines that list words, the first of which has the given address. A line begins with the address
of its first word, in no fewer than four digits, and a line holds eight words, but for the last. -/
structure Lists (address : Nat) (words : List UInt16) (rows : List (List Char)) : Prop where
  single : ∀ row ∈ rows, '\n' ∉ row
  length : rows.length = (words.length + 7) / 8
  addresses : ∀ i row, rows[i]? = some row → ∃ front rest, row = front ++ ':' :: rest ∧
    4 ≤ front.length ∧ digits? 16 front = some (address + 8 * i)
  eights : ∀ i row, rows[i]? = some row →
    numbers row = ((words.drop (8 * i)).take 8).map fun word => some word.toNat
  words : rows.flatMap numbers = words.map fun word => some word.toNat

theorem Lists.cons {address : Nat} {words : List UInt16} {rows : List (List Char)}
    (some_word : words ≠ []) (rest : Lists (address + 8) (words.drop 8) rows) :
    Lists address words (row address (words.take 8) :: rows) where
  single := List.forall_mem_cons.mpr ⟨row_single _ _, rest.single⟩
  length := by
    have positive := List.length_pos_iff.mpr some_word
    have fewer := rest.length
    rw [List.length_drop] at fewer
    rw [List.length_cons]
    omega
  addresses := by
    rintro (_ | i) row' here
    · obtain rfl := Option.some.inj here
      exact ⟨_, _, rfl, le_length_hex 4 address, digits?_hex 4 address⟩
    · obtain ⟨front, behind, cut, long, value⟩ := rest.addresses i row' here
      refine ⟨front, behind, cut, long, ?_⟩
      rw [value, Nat.mul_succ, Nat.add_assoc, Nat.add_comm 8]
  eights := by
    rintro (_ | i) row' here
    · obtain rfl := Option.some.inj here
      exact numbers_row address (words.take 8)
    · rw [rest.eights i row' here, List.drop_drop, Nat.mul_succ, Nat.add_comm 8]
  words := by
    rw [List.flatMap_cons, numbers_row, rest.words, ← List.map_append, List.take_append_drop]

/-- The induction is on the words that are left, eight at a time. -/
theorem exists_lists (address : Nat) (words : List UInt16) : ∃ rows,
    (lines address words).map String.toList = rows.map (· ++ ['\n']) ∧
      Lists address words rows := by
  fun_induction lines address words with
  | case1 address => exact ⟨[], rfl, by simp, rfl, by simp, by simp, rfl⟩
  | case2 address word rest ih =>
      obtain ⟨rows, same, lists⟩ := ih
      refine ⟨_, ?_, lists.cons (List.cons_ne_nil word rest)⟩
      rw [List.map_cons, List.map_cons, same, toList_line]
      rfl

theorem render_lists (memory : List UInt16) : ∃ rows,
    (render memory).toList = rows.flatMap (· ++ ['\n']) ∧ Lists 0 memory rows := by
  obtain ⟨rows, same, lists⟩ := exists_lists 0 memory
  refine ⟨rows, ?_, lists⟩
  rw [render, String.toList_join, List.flatMap_def, same, ← List.flatMap_def]

theorem allNumbers_render (memory : List UInt16) :
    allNumbers (render memory).toList = memory.map fun word => some word.toNat := by
  obtain ⟨rows, text, lists⟩ := render_lists memory
  rw [text, allNumbers_lines lists.single, lists.words]

/-- Words are told from each other by their numbers. -/
theorem map_number_injective :
    Function.Injective (List.map fun word : UInt16 => some word.toNat) :=
  List.map_injective_iff.mpr fun _ _ same => UInt16.toNat_inj.mp (Option.some.inj same)

/-- Different memories are listed differently. -/
theorem render_injective : Function.Injective render := by
  intro memory memory' same
  apply map_number_injective
  rw [← allNumbers_render, same, allNumbers_render]

end Listing

end CipherMachine
