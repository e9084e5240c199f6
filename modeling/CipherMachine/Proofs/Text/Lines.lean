import CipherMachine.Proofs.Image.Grammar
import Mathlib.Data.List.Forall2

set_option autoImplicit false

/-!
What counts of a line, and what does not: white space around tokens, its kind, and comments.

A text is also cut at its line feeds alone, into rows. A row may keep a carriage return that a line
loses, and a text that ends in a line feed has an empty last row, but neither counts.
-/

namespace CipherMachine.Text

theorem pieces_eq_splitOnP (separates : Char → Bool) (text : List Char) :
    pieces separates text = text.splitOnP separates := by
  induction text with
  | nil => rfl
  | cons c rest ih =>
      rw [pieces, ih, List.splitOnP_cons_eq_if_modifyHead]
      cases split : rest.splitOnP separates with
      | nil => exact absurd split (List.splitOnP_ne_nil _ _)
      | cons piece more => rfl

theorem tokens_append_cons (line rest : List Char) {c : Char} (blank : isBlank c = true) :
    tokens (line ++ c :: rest) = tokens line ++ tokens rest := by
  simp only [tokens, pieces_eq_splitOnP, List.splitOnP_append_cons line rest blank,
    List.filter_append]

/-- White space that is no line feed. -/
def Spaces (gap : List Char) : Prop := ∀ c ∈ gap, isBlank c = true ∧ c ≠ '\n'

instance (gap : List Char) : Decidable (Spaces gap) :=
  List.decidableBAll (fun c => isBlank c = true ∧ c ≠ '\n') gap

variable {gap other : List Char}

theorem tokens_spaces (spaces : Spaces gap) (line : List Char) :
    tokens (gap ++ line) = tokens line := by
  induction gap with
  | nil => rfl
  | cons c gap ih =>
      obtain ⟨first, others⟩ := List.forall_mem_cons.mp spaces
      exact (tokens_append_cons [] (gap ++ line) first.1).trans (ih others)

theorem tokens_gap (spaces : Spaces gap) (some_gap : gap ≠ []) (line rest : List Char) :
    tokens (line ++ (gap ++ rest)) = tokens line ++ tokens rest := by
  cases gap with
  | nil => contradiction
  | cons c gap =>
      obtain ⟨first, others⟩ := List.forall_mem_cons.mp spaces
      rw [List.cons_append, tokens_append_cons line (gap ++ rest) first.1, tokens_spaces others]

theorem tokens_trailing (spaces : Spaces gap) (line : List Char) :
    tokens (line ++ gap) = tokens line := by
  by_cases some_gap : gap = []
  · rw [some_gap, List.append_nil]
  · have cut := tokens_gap spaces some_gap line []
    rwa [List.append_nil, show tokens [] = [] from rfl, List.append_nil] at cut

theorem tokens_single {token : List Char} (some_character : token ≠ [])
    (solid : token.any isBlank = false) : tokens token = [token] := by
  have uncut : token.splitOnP isBlank = [token] := List.splitOnP_eq_singleton fun c member =>
    Bool.eq_false_iff.mpr (List.any_eq_false.mp solid c member)
  simp [tokens, pieces_eq_splitOnP, uncut, some_character]

theorem withoutComment_append (line rest : List Char) : withoutComment (line ++ rest) =
    if '#' ∈ line then withoutComment line else line ++ withoutComment rest := by
  unfold withoutComment
  induction line with
  | nil => simp
  | cons c line ih =>
      by_cases mark : c = '#'
      · simp [mark]
      · have other : '#' ≠ c := fun same => mark same.symm
        simp only [List.cons_append, List.takeWhile_cons, bne_iff_ne, ne_eq, mark,
          not_false_eq_true, ↓reduceIte, List.mem_cons, other, false_or, ih]
        split <;> rfl

theorem withoutComment_eq_self {line : List Char} (bare : '#' ∉ line) :
    withoutComment line = line := by
  have cut := withoutComment_append line []
  rwa [List.append_nil, if_neg bare, show withoutComment [] = [] from rfl, List.append_nil] at cut

theorem not_mark_of_spaces (spaces : Spaces gap) : '#' ∉ gap := by
  intro mark
  exact absurd (spaces _ mark).1 (by decide)

theorem content_comment (line comment : List Char) :
    content (line ++ '#' :: comment) = content line := by
  have cut : withoutComment ('#' :: comment) = [] := rfl
  rw [content, content, withoutComment_append, cut, List.append_nil]
  by_cases bare : '#' ∈ line
  · rw [if_pos bare]
  · rw [if_neg bare, withoutComment_eq_self bare]

theorem content_trailing (spaces : Spaces gap) (line : List Char) :
    content (line ++ gap) = content line := by
  have uncut := withoutComment_eq_self (not_mark_of_spaces spaces)
  rw [content, content, withoutComment_append, uncut]
  by_cases bare : '#' ∈ line
  · rw [if_pos bare]
  · rw [if_neg bare, withoutComment_eq_self bare, tokens_trailing spaces]

theorem content_spaces (spaces : Spaces gap) (line : List Char) :
    content (gap ++ line) = content line := by
  rw [content, withoutComment_append, if_neg (not_mark_of_spaces spaces), tokens_spaces spaces,
    content]

/-- One gap is as good as another. -/
theorem content_gap (spaces : Spaces gap) (some_gap : gap ≠ []) (spaces' : Spaces other)
    (some_gap' : other ≠ []) (line rest : List Char) :
    content (line ++ (gap ++ rest)) = content (line ++ (other ++ rest)) := by
  rw [content, content, withoutComment_append, withoutComment_append line]
  split
  · rfl
  · rw [withoutComment_append, if_neg (not_mark_of_spaces spaces), withoutComment_append other,
      if_neg (not_mark_of_spaces spaces'), tokens_gap spaces some_gap,
      tokens_gap spaces' some_gap']

/-- The row is the line, or the line with its carriage return. -/
def RowOf (row line : List Char) : Prop := row = line ∨ row = line ++ ['\r']

theorem RowOf.content {row line : List Char} (row_of : RowOf row line) :
    content row = content line := by
  rcases row_of with rfl | rfl
  · rfl
  · have spaces : Spaces ['\r'] := by simp [Spaces, isBlank_carriageReturn]
    exact content_trailing spaces line

theorem map_content_eq {rows lines : List (List Char)} (rows_of : List.Forall₂ RowOf rows lines) :
    rows.map content = lines.map content := by
  rw [← List.forall₂_eq_eq_eq, List.forall₂_map_left_iff, List.forall₂_map_right_iff]
  exact rows_of.imp fun _ _ => RowOf.content

/-- The rows of a text, which its line feeds separate. -/
def rows (text : List Char) : List (List Char) := text.splitOn '\n'

theorem rows_nil : rows [] = [[]] := rfl

theorem rows_cons (c : Char) (text : List Char) : rows (c :: text) =
    if c = '\n' then [] :: rows text else (rows text).modifyHead (c :: ·) := by
  simp [rows, List.splitOn_cons_eq_if_modifyHead]

theorem rows_ne_nil (text : List Char) : rows text ≠ [] := List.splitOn_ne_nil _ _

theorem rows_append_cons (text rest : List Char) :
    rows (text ++ '\n' :: rest) = rows text ++ rows rest := List.splitOn_append_cons_self _ _

theorem length_rows (text : List Char) : (rows text).length = text.count '\n' + 1 := by
  induction text with
  | nil => rfl
  | cons c text ih =>
      rw [rows_cons, List.count_cons]
      by_cases feed : c = '\n' <;> simp [feed, ih]

theorem rows_single {row : List Char} (single : '\n' ∉ row) : rows row = [row] :=
  List.splitOn_eq_singleton single

/-- Rows that each end in a line feed leave an empty row at the end. -/
theorem rows_flatMap {lines : List (List Char)} (single : ∀ line ∈ lines, '\n' ∉ line) :
    rows (lines.flatMap (· ++ ['\n'])) = lines ++ [[]] := by
  induction lines with
  | nil => rfl
  | cons line rest ih =>
      obtain ⟨here, others⟩ := List.forall_mem_cons.mp single
      rw [List.flatMap_cons, List.append_assoc]
      change rows (line ++ '\n' :: rest.flatMap (· ++ ['\n'])) = _
      rw [rows_append_cons, rows_single here, ih others]
      rfl

/-- The last row of a text and the first one of the text behind it are one row. -/
theorem rows_append {text rest first last : List Char} {before after : List (List Char)}
    (left : rows text = before ++ [first]) (right : rows rest = last :: after) :
    rows (text ++ rest) = before ++ (first ++ last) :: after := by
  induction text generalizing before first with
  | nil =>
      obtain ⟨rfl, rfl⟩ : before = [] ∧ first = [] := by
        cases before <;> simp_all [rows_nil]
      exact right
  | cons c text ih =>
      rw [List.cons_append, rows_cons]
      rw [rows_cons] at left
      by_cases feed : c = '\n'
      · rw [if_pos feed] at left ⊢
        cases before with
        | nil => exact absurd (List.cons.inj left).2 (rows_ne_nil text)
        | cons row before =>
            obtain ⟨rfl, others⟩ := List.cons.inj left
            exact congrArg ([] :: ·) (ih others)
      · rw [if_neg feed] at left ⊢
        cases cut : rows text with
        | nil => exact absurd cut (rows_ne_nil text)
        | cons row more =>
            rw [cut] at left
            cases before with
            | nil =>
                obtain ⟨rfl, rfl⟩ := List.cons.inj left
                have joined : rows (text ++ rest) = [] ++ (row ++ last) :: after := ih cut
                rw [joined]
                rfl
            | cons row' before =>
                obtain ⟨rfl, rfl⟩ := List.cons.inj left
                have joined : rows (text ++ rest) = (row :: before) ++ (first ++ last) :: after :=
                  ih cut
                rw [joined]
                rfl

theorem lines_eq_nil_iff {text : List Char} : lines text = [] ↔ text = [] := by
  fun_cases lines text <;> simp_all

/-- A character in front of a text belongs to its first row and line. -/
theorem rowsOf_cons {c : Char} (other : c ≠ '\n') {text line : List Char}
    {lines : List (List Char)} (rows_of : List.Forall₂ RowOf (rows text) (line :: lines)) :
    List.Forall₂ RowOf (rows (c :: text)) ((c :: line) :: lines) := by
  obtain ⟨row, others, row_of, others_of, cut⟩ := List.forall₂_cons_right_iff.mp rows_of
  rw [rows_cons, if_neg other, cut]
  exact .cons (row_of.imp (congrArg (c :: ·)) (congrArg (c :: ·))) others_of

/-- What stands in the middle of a text and has no line feed lies in one row. -/
theorem rows_around (before after : List Char) : ∃ front first last behind,
    rows before = front ++ [first] ∧ rows after = last :: behind ∧ ∀ middle, '\n' ∉ middle →
      rows (before ++ middle ++ after) = front ++ (first ++ middle ++ last) :: behind := by
  obtain ⟨front, first, left⟩ := (List.eq_nil_or_concat' (rows before)).resolve_left
    (rows_ne_nil before)
  obtain ⟨last, behind, right⟩ := List.exists_cons_of_ne_nil (rows_ne_nil after)
  refine ⟨front, first, last, behind, left, right, fun middle single => ?_⟩
  exact rows_append (rows_append left (rows_single single)) right

/-- Rows are lines, but for carriage returns and an empty row at the end. -/
theorem rows_lines (text : List Char) : ∃ last, (last = [] ∨ last = [[]]) ∧
    List.Forall₂ RowOf (rows text) (lines text ++ last) := by
  fun_induction lines text with
  | case1 => exact ⟨[[]], .inr rfl, .cons (.inl rfl) .nil⟩
  | case2 rest ih =>
      obtain ⟨last, blank, rows_of⟩ := ih
      exact ⟨last, blank, .cons (.inl rfl) rows_of⟩
  | case3 rest ih =>
      obtain ⟨last, blank, rows_of⟩ := ih
      refine ⟨last, blank, ?_⟩
      rw [rows_cons, rows_cons]
      exact .cons (.inr rfl) rows_of
  | case4 c rest not_feed _ empty _ =>
      obtain rfl : rest = [] := lines_eq_nil_iff.mp empty
      rw [rows_cons, if_neg not_feed]
      exact ⟨[], .inl rfl, .cons (.inl rfl) .nil⟩
  | case5 c rest not_feed _ line more split ih =>
      obtain ⟨last, blank, rows_of⟩ := ih
      rw [split] at rows_of
      exact ⟨last, blank, rowsOf_cons not_feed rows_of⟩

end CipherMachine.Text
