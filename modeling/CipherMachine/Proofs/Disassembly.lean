import CipherMachine.Listing
import CipherMachine.Proofs.Image.Writing
import CipherMachine.Proofs.Listing

set_option autoImplicit false

/-!
Disassemblies are read back: the first two lines set the registers as the lines of an image's text
do, and the first number behind the colon of every other line is a word, whatever the text of its
instruction.
-/

namespace CipherMachine

namespace Text

theorem toLower_of_mem_toDigits {c : Char} {n : Nat} (member : c ∈ Nat.toDigits 16 n) :
    c.toLower = c := by
  have digit : ∀ d < 16, (Nat.digitChar d).toLower = Nat.digitChar d := by decide
  induction n using Nat.strongRecOn with
  | ind n ih =>
      by_cases single : n < 16
      · rw [Nat.toDigits_of_lt_base single, List.mem_singleton] at member
        rw [member, digit n single]
      · rw [Nat.toDigits_of_base_le (by decide) (by omega), List.mem_append,
          List.mem_singleton] at member
        rcases member with front | rfl
        · exact ih (n / 16) (by omega) front
        · exact digit (n % 16) (by omega)

/-- A number with its mark is written in base sixteen. -/
theorem numeral_markedHex (width n : Nat) : Numeral n (markedHex width n).toList := by
  have lower : (Nat.toDigits 16 n).map Char.toLower = Nat.toDigits 16 n :=
    (List.map_congr_left fun _ => toLower_of_mem_toDigits).trans (List.map_id _)
  rw [markedHex, String.toList_append, toList_hex]
  exact .hexadecimal _ (.inl rfl) lower

end Text

theorem Opcode.mnemonic_single (op : Opcode) : '\n' ∉ op.mnemonic.toList := by
  cases op <;> decide

/-- The text of an instruction is part of one line. -/
theorem Instruction.text_single (i : Instruction) : '\n' ∉ i.text.toList := by
  have digits : ∀ n, '\n' ∉ Nat.toDigits 10 n := fun n member =>
    absurd (Nat.isDigit_of_mem_toDigits (by decide) (by decide) member) (by decide)
  unfold Instruction.text
  cases i.opcode? with
  | none => simp
  | some op =>
      have mnemonic := op.mnemonic_single
      cases use : op.operandUse with
      | none => simpa [use] using mnemonic
      | immediate =>
          simp only [use]
          split <;> simp [mnemonic, digits, toString]
      | address =>
          simp only [use]
          split <;> simp [mnemonic, digits, toString]

namespace Disassembly

open Text

def row (address : Nat) (word : UInt16) : List Char :=
  (hex 4 address).toList ++ ':' :: ' ' :: ((hex 4 word.toNat).toList ++
    ' ' :: ' ' :: (Instruction.decode word).text.toList)

theorem toList_line (address : Nat) (word : UInt16) :
    (line address word).toList = row address word ++ ['\n'] := by
  simp [line, row, toString]

theorem row_single (address : Nat) (word : UInt16) : '\n' ∉ row address word := by
  have plain : ∀ n, '\n' ∉ (hex 4 n).toList := fun n => not_mem_hex 4 n rfl
  simp [row, plain, Instruction.text_single]

/-- A blank ends the number of the word before the text of its instruction begins. -/
theorem head?_numbers_row (address : Nat) (word : UInt16) :
    (numbers (row address word)).head? = some (some word.toNat) := by
  have first : ∀ rest, tokens ([' '] ++ ((hex 4 word.toNat).toList ++ ' ' :: rest)) =
      (hex 4 word.toNat).toList :: tokens rest := by
    intro rest
    rw [tokens_spaces (by decide), tokens_append_cons _ rest (by decide), tokens_hex,
      List.singleton_append]
  rw [numbers, row, afterColon_append (not_mem_hex 4 address rfl), ← List.singleton_append, first,
    List.map_cons, List.head?_cons, digits?_hex]

def rows (image : Image) : List (List Char) :=
  (".pc ".toList ++ (markedHex 2 image.pc.toNat).toList) ::
    (".ac ".toList ++ (markedHex 4 image.ac.toNat).toList) ::
      image.words.zipIdx.map fun (word, address) => row address word

theorem toList_render (image : Image) :
    (render image).toList = (rows image).flatMap (· ++ ['\n']) := by
  simp [render, rows, toString, String.toList_join, List.flatMap_map, toList_line]

theorem rows_single (image : Image) : ∀ line ∈ rows image, '\n' ∉ line := by
  have pc := (Item.Written.pc (numeral_markedHex 2 image.pc.toNat)).single
  have ac := (Item.Written.ac (numeral_markedHex 4 image.ac.toNat)).single
  simp only [rows, List.forall_mem_cons, List.forall_mem_map]
  exact ⟨pc, ac, fun cell _ => row_single cell.2 cell.1⟩

/-- What a disassembly shows: the registers that its first two lines set, and the first numbers
behind the colons. -/
def shown (text : List Char) : Except ReadError Image × List (Option Nat) :=
  ((Draft.readLines {} 1 ((Text.rows text).take 2)).map Draft.image,
    (Text.rows text).filterMap fun line => (numbers line).head?)

theorem numbers_register (name : List Char) (plain : ':' ∉ name) {n : Nat} {token : List Char}
    (numeral : Numeral n token) : numbers (name ++ token) = [] := by
  have no_colon : ':' ∉ name ++ token := by
    simp [plain, numeral.not_mem (c := ':') (by decide) (by decide)]
  rw [numbers, afterColon_of_not_mem no_colon]
  rfl

theorem readLines_registers {pc ac : UInt16} {first second : List Char}
    (sets_pc : Item.Written (.pc pc) first) (sets_ac : Item.Written (.ac ac) second) :
    (Draft.readLines {} 1 [first, second]).map Draft.image = .ok ⟨pc, ac, []⟩ := by
  have start : Draft.Accepts {} (.pc pc) := trivial
  have next : Draft.Accepts (Draft.add {} (.pc pc)) (.ac ac) := trivial
  rw [start.readLines sets_pc, next.readLines sets_ac]
  rfl

theorem filterMap_rows (words : List UInt16) :
    (words.zipIdx.map fun (word, address) => row address word).filterMap
      (fun line => (numbers line).head?) = words.map fun word => some word.toNat := by
  conv_rhs => rw [← List.zipIdx_map_fst 0 words, List.map_map]
  simp only [List.filterMap_map, Function.comp_def, head?_numbers_row, List.filterMap_eq_map']

theorem shown_render (image : Image) : shown (render image).toList =
    (.ok ⟨image.pc, image.ac, []⟩, image.words.map fun word => some word.toNat) := by
  have pc := numeral_markedHex 2 image.pc.toNat
  have ac := numeral_markedHex 4 image.ac.toNat
  have lines : Text.rows (render image).toList = rows image ++ [[]] := by
    rw [toList_render, rows_flatMap (rows_single image)]
  rw [shown, lines, Prod.mk.injEq]
  constructor
  · exact readLines_registers (.pc pc) (.ac ac)
  · have no_pc := numbers_register ".pc ".toList (by decide) pc
    have no_ac := numbers_register ".ac ".toList (by decide) ac
    simp only [rows, List.filterMap_append, List.filterMap_cons, List.filterMap_nil, no_pc, no_ac,
      show numbers [] = [] from rfl, List.head?_nil, filterMap_rows, List.append_nil]

theorem render_injective : Function.Injective render := by
  intro image image' same
  have shows := shown_render image
  rw [same, shown_render, Prod.mk.injEq, Except.ok.injEq, Image.mk.injEq] at shows
  obtain ⟨⟨pc, ac, _⟩, words⟩ := shows
  have words := Listing.map_number_injective words
  cases image
  cases image'
  simp_all

end Disassembly

end CipherMachine
