import CipherMachine.Proofs.Outcome
import CipherMachine.Proofs.Text.Lines

set_option autoImplicit false

/-!
The layout of a text does not matter: how its lines end, how wide its gaps are and of which white
space, and which comments it has. A line that counts for nothing moves the lines behind it, and the
errors that they have.
-/

namespace CipherMachine

open Text

namespace ReadError

/-- The error, if a line is inserted in front of the line with the given number. -/
def moved (inserted : Nat) (error : ReadError) : ReadError :=
  if inserted ≤ error.line then { error with line := error.line + 1 } else error

end ReadError

namespace Draft

/-- Only the contents of lines count. -/
theorem readLines_congr {lines lines' : List (List Char)}
    (same : lines.map content = lines'.map content) (d : Draft) (number : Nat) :
    d.readLines number lines = d.readLines number lines' := by
  induction lines generalizing lines' d number with
  | nil =>
      rw [List.map_nil, eq_comm, List.map_eq_nil_iff] at same
      rw [same]
  | cons line rest ih =>
      obtain ⟨line', rest', rfl, here, others⟩ := List.map_eq_cons_iff.mp same.symm
      change tokens (withoutComment line') = tokens (withoutComment line) at here
      rw [readLines, readLines, here]
      cases d.readTokens (tokens (withoutComment line)) with
      | ok next => exact ih others.symm next (number + 1)
      | error fault => rfl

theorem readLines_append (d : Draft) (number : Nat) (first rest : List (List Char)) :
    d.readLines number (first ++ rest) =
      d.readLines number first >>= fun next => next.readLines (number + first.length) rest := by
  induction first generalizing d number with
  | nil => rfl
  | cons line first ih =>
      rw [List.cons_append, readLines, readLines]
      cases d.readTokens (tokens (withoutComment line)) with
      | ok next =>
          dsimp only
          rw [ih, List.length_cons, Nat.add_right_comm, Nat.add_assoc]
      | error fault => rfl

theorem readLines_blank (d : Draft) (number : Nat) {line : List Char} (blank : content line = [])
    (rest : List (List Char)) :
    d.readLines number (line :: rest) = d.readLines (number + 1) rest := by
  change tokens (withoutComment line) = [] at blank
  rw [readLines, blank, readTokens]

theorem readLines_concat_blank (d : Draft) (number : Nat) (lines : List (List Char))
    {line : List Char} (blank : content line = []) :
    d.readLines number (lines ++ [line]) = d.readLines number lines := by
  rw [readLines_append]
  cases d.readLines number lines with
  | ok next => exact next.readLines_blank _ blank []
  | error error => rfl

/-- An error tells of one of the lines that are read. -/
theorem readLines_bounds (d : Draft) (number : Nat) (lines : List (List Char)) :
    Outcome (fun error => number ≤ error.line ∧ error.line < number + lines.length)
      (fun _ => True) (d.readLines number lines) := by
  induction lines generalizing d number with
  | nil => trivial
  | cons line rest ih =>
      rw [readLines]
      cases d.readTokens (tokens (withoutComment line)) with
      | ok next =>
          refine (ih next (number + 1)).imp (fun error bounds => ?_) fun _ => id
          rw [List.length_cons]
          omega
      | error fault => exact ⟨Nat.le_refl _, by simp⟩

/-- Lines that are numbered one higher have errors one line further down. -/
theorem readLines_succ (d : Draft) (number inserted : Nat) (early : inserted ≤ number)
    (lines : List (List Char)) : d.readLines (number + 1) lines =
      (d.readLines number lines).mapError (ReadError.moved inserted) := by
  induction lines generalizing d number with
  | nil => rfl
  | cons line rest ih =>
      rw [readLines, readLines]
      cases d.readTokens (tokens (withoutComment line)) with
      | ok next => exact ih next (number + 1) (Nat.le_succ_of_le early)
      | error fault => simp [Except.mapError, ReadError.moved, early]

theorem readLines_insert (d : Draft) (number : Nat) (first : List (List Char)) {line : List Char}
    (blank : content line = []) (rest : List (List Char)) :
    d.readLines number (first ++ line :: rest) =
      (d.readLines number (first ++ rest)).mapError (ReadError.moved (number + first.length)) := by
  rw [readLines_append, readLines_append]
  have bounds := d.readLines_bounds number first
  cases read : d.readLines number first with
  | ok next =>
      have behind := next.readLines_succ (number + first.length) _ (Nat.le_refl _) rest
      exact (next.readLines_blank _ blank rest).trans behind
  | error error =>
      rw [read] at bounds
      have before : ¬ number + first.length ≤ error.line := Nat.not_le.mpr bounds.2
      change Except.error error = Except.error (error.moved _)
      rw [ReadError.moved, if_neg before]

end Draft

theorem Image.read_eq_rows (text : List Char) :
    Image.read text = (Draft.readLines {} 1 (rows text)).map Draft.image := by
  obtain ⟨last, blank, rows_of⟩ := rows_lines text
  rw [Draft.readLines_congr (map_content_eq rows_of)]
  rcases blank with rfl | rfl
  · rw [List.append_nil, Image.read]
  · rw [Draft.readLines_concat_blank _ _ _ rfl, Image.read]

theorem Image.read_congr {text text' : List Char}
    (same : (rows text).map content = (rows text').map content) :
    Image.read text = Image.read text' := by
  rw [read_eq_rows, read_eq_rows, Draft.readLines_congr same]

namespace Text

/-- The text with carriage returns before the line feeds that are chosen, counted from zero. -/
def withReturns (chosen : Nat → Bool) : List Char → List Char
  | [] => []
  | c :: text =>
    if c = '\n' then
      (if chosen 0 then ['\r', '\n'] else ['\n']) ++ withReturns (fun i => chosen (i + 1)) text
    else c :: withReturns chosen text

theorem rows_withReturns (chosen : Nat → Bool) (text : List Char) :
    List.Forall₂ RowOf (rows (withReturns chosen text)) (rows text) := by
  induction text generalizing chosen with
  | nil => exact .cons (.inl rfl) .nil
  | cons c text ih =>
      rw [withReturns, rows_cons c]
      by_cases feed : c = '\n'
      · rw [if_pos feed, if_pos feed]
        by_cases first : chosen 0 = true
        · rw [if_pos first]
          exact (rows_append_cons ['\r'] _).symm ▸ .cons (.inr rfl) (ih _)
        · rw [if_neg first]
          exact (rows_append_cons [] _).symm ▸ .cons (.inl rfl) (ih _)
      · rw [if_neg feed, if_neg feed]
        have rows_of := ih chosen
        cases cut : rows text with
        | nil => exact absurd cut (rows_ne_nil text)
        | cons line lines =>
            rw [cut] at rows_of
            exact rowsOf_cons feed rows_of

/-- What follows starts a line. -/
def LineStart (before : List Char) : Prop := before = [] ∨ ∃ text, before = text ++ ['\n']

/-- What precedes ends a line. -/
def LineEnd (after : List Char) : Prop :=
  after = [] ∨ (∃ text, after = '\n' :: text) ∨ ∃ text, after = '\r' :: '\n' :: text

theorem LineStart.rows {before : List Char} (starts : LineStart before) :
    ∃ first, first.length = before.count '\n' ∧
      ∀ text, rows (before ++ text) = first ++ rows text := by
  rcases starts with rfl | ⟨start, rfl⟩
  · exact ⟨[], rfl, fun _ => rfl⟩
  · refine ⟨Text.rows start, ?_, fun text => ?_⟩
    · simp [length_rows]
    · rw [List.append_assoc]
      exact rows_append_cons start text

theorem LineStart.last_row {before last : List Char} {front : List (List Char)}
    (starts : LineStart before) (cut : Text.rows before = front ++ [last]) : last = [] := by
  obtain ⟨front', _, rows⟩ := starts.rows
  have bare := rows []
  rw [List.append_nil, cut, rows_nil] at bare
  exact List.singleton_inj.mp (List.append_inj' bare rfl).2

theorem LineEnd.first_row {after row : List Char} {behind : List (List Char)}
    (ends : LineEnd after) (cut : rows after = row :: behind) : Spaces row := by
  rcases ends with rfl | ⟨text, rfl⟩ | ⟨text, rfl⟩
  · obtain ⟨rfl, _⟩ := List.cons.inj cut
    simp [Spaces]
  · obtain ⟨rfl, _⟩ := List.cons.inj ((rows_append_cons [] text).symm.trans cut)
    simp [Spaces]
  · obtain ⟨rfl, _⟩ := List.cons.inj ((rows_append_cons ['\r'] text).symm.trans cut)
    simp [Spaces, isBlank_carriageReturn]

theorem first_row_cons {c : Char} (other : c ≠ '\n') {text row : List Char}
    {behind : List (List Char)} (cut : rows (c :: text) = row :: behind) :
    ∃ rest, row = c :: rest := by
  obtain ⟨first, others, split⟩ := List.exists_cons_of_ne_nil (rows_ne_nil text)
  rw [rows_cons, if_neg other, split] at cut
  exact ⟨first, (List.cons.inj cut).1.symm⟩

theorem Spaces.single {gap : List Char} (spaces : Spaces gap) : '\n' ∉ gap :=
  fun feed => (spaces _ feed).2 rfl

end Text

namespace Image

variable {before gap gap' comment after : List Char}

/-- A gap may have any other width and kind. Where a line or what counts of it begins or ends, there
need not be one. -/
theorem read_gap (spaces : Spaces gap) (spaces' : Spaces gap')
    (place : (gap ≠ [] ∧ gap' ≠ []) ∨ LineStart before ∨ LineEnd after ∨
      ∃ comment, after = '#' :: comment) :
    Image.read (before ++ gap ++ after) = Image.read (before ++ gap' ++ after) := by
  obtain ⟨front, first, last, behind, left, right, around⟩ := rows_around before after
  apply read_congr
  rw [around gap spaces.single, around gap' spaces'.single, List.map_append, List.map_append,
    List.map_cons, List.map_cons]
  congr 2
  rcases place with ⟨some_gap, some_gap'⟩ | starts | ends | ⟨comment, rfl⟩
  · rw [List.append_assoc, List.append_assoc]
    exact content_gap spaces some_gap spaces' some_gap' first last
  · obtain rfl : first = [] := starts.last_row left
    simp only [List.nil_append, content_spaces spaces, content_spaces spaces']
  · have blank := ends.first_row right
    simp only [content_trailing blank, content_trailing spaces, content_trailing spaces']
  · obtain ⟨row, rfl⟩ : ∃ row, last = '#' :: row := first_row_cons (by decide) right
    simp only [content_comment, content_trailing spaces, content_trailing spaces']

theorem read_comment (single : '\n' ∉ comment) (ends : LineEnd after) :
    Image.read (before ++ '#' :: comment ++ after) = Image.read (before ++ after) := by
  obtain ⟨front, first, last, behind, _, right, around⟩ := rows_around before after
  have bare := around [] List.not_mem_nil
  rw [List.append_nil, List.append_nil] at bare
  have blank := ends.first_row right
  apply read_congr
  rw [around _ (by simpa using single), bare, List.map_append, List.map_append, List.map_cons,
    List.map_cons, content_trailing blank, content_trailing blank, content_comment]

/-- A line that counts for nothing moves the lines behind it. -/
theorem read_insert {line : List Char} (starts : LineStart before) (single : '\n' ∉ line)
    (blank : content line = []) : Image.read (before ++ line ++ '\n' :: after) =
      (Image.read (before ++ after)).mapError (ReadError.moved (before.count '\n' + 1)) := by
  obtain ⟨front, length, front_rows⟩ := starts.rows
  rw [read_eq_rows, read_eq_rows, List.append_assoc, front_rows, front_rows, rows_append_cons,
    rows_single single]
  change (Draft.readLines {} 1 (front ++ line :: rows after)).map _ = _
  rw [Draft.readLines_insert _ _ _ blank, length, Nat.add_comm]
  cases Draft.readLines {} 1 (front ++ rows after) <;> rfl

/-- Neither line ends nor gaps nor comments matter to what is read, errors included. Any line feeds
may get a carriage return; the text may end in a line end or not; gaps may have any width and kind
of white space, as long as one is left between tokens; and any line may get a comment at its end. A
line that holds nothing but white space and a comment moves the errors of the line in front of which
it is put, and of those behind, down by one line. -/
theorem read_ignores_layout :
    (∀ chosen text, Image.read (withReturns chosen text) = Image.read text) ∧
    (∀ text, Image.read (text ++ ['\n']) = Image.read text ∧
      Image.read (text ++ ['\r', '\n']) = Image.read text) ∧
    (∀ before gap gap' after, Spaces gap → Spaces gap' →
      ((gap ≠ [] ∧ gap' ≠ []) ∨ LineStart before ∨ LineEnd after ∨
        ∃ comment, after = '#' :: comment) →
      Image.read (before ++ gap ++ after) = Image.read (before ++ gap' ++ after)) ∧
    (∀ before comment after, '\n' ∉ comment → LineEnd after →
      Image.read (before ++ '#' :: comment ++ after) = Image.read (before ++ after)) ∧
    ∀ before gap comment after, LineStart before → Spaces gap → '\n' ∉ comment →
      (comment = [] ∨ ∃ text, comment = '#' :: text) →
      Image.read (before ++ (gap ++ comment) ++ '\n' :: after) =
        (Image.read (before ++ after)).mapError (ReadError.moved (before.count '\n' + 1)) := by
  have returns : ∀ chosen text, Image.read (withReturns chosen text) = Image.read text :=
    fun chosen text => read_congr (map_content_eq (rows_withReturns chosen text))
  have final : ∀ text, Image.read (text ++ ['\n']) = Image.read text := by
    intro text
    rw [read_eq_rows, read_eq_rows, rows_append_cons, rows_nil,
      Draft.readLines_concat_blank _ _ _ rfl]
  refine ⟨returns, fun text => ⟨final text, ?_⟩, ?_, ?_, ?_⟩
  · have carriage : Spaces ['\r'] := by decide
    have dropped : Image.read (text ++ ['\r'] ++ ['\n']) = Image.read (text ++ [] ++ ['\n']) :=
      read_gap carriage (by decide) (.inr (.inr (.inl (.inr (.inl ⟨[], rfl⟩)))))
    rw [List.append_assoc, List.append_nil] at dropped
    exact dropped.trans (final text)
  · exact fun before gap gap' after => read_gap
  · exact fun before comment after => read_comment
  · intro before gap comment after starts spaces single kind
    apply read_insert starts
    · rw [List.mem_append, not_or]
      exact ⟨spaces.single, single⟩
    · rw [content_spaces spaces]
      rcases kind with rfl | ⟨text, rfl⟩
      · rfl
      · exact content_comment [] text

/-- Two words and a line with one too many. Each change leaves its error, and a comment in front of
the second line moves it down. -/
theorem read_ignores_layout_error :
    let text := "1\n 2\n3 4".toList
    let refused := Except.error ⟨3, .trailingInput "4"⟩
    Image.read text = refused ∧
      Image.read (withReturns (· == 1) text) = refused ∧
      Image.read (text ++ ['\n']) = refused ∧
      Image.read ("1\n 2\n3".toList ++ "\t\r".toList ++ ['4']) = refused ∧
      Image.read ("1\n".toList ++ [] ++ "2\n3 4".toList) = refused ∧
      Image.read ("1".toList ++ '#' :: "#5".toList ++ "\n 2\n3 4".toList) = refused ∧
      Image.read ("1\n".toList ++ ("  ".toList ++ "# 5".toList) ++ '\n' :: " 2\n3 4".toList) =
        .error ⟨4, .trailingInput "4"⟩ := by
  intro text refused
  have read : Image.read text = refused := by decide
  obtain ⟨returns, final, gap, comment, inserted⟩ := read_ignores_layout
  refine ⟨read, ?_, ?_, ?_, ?_, ?_, ?_⟩
  · exact (returns _ text).trans read
  · exact (final text).1.trans read
  · exact (gap _ _ [' '] _ (by decide) (by decide) (.inl (by decide))).trans read
  · exact (gap _ _ [' '] _ (by decide) (by decide) (.inr (.inl (.inr ⟨['1'], rfl⟩)))).trans read
  · exact (comment _ _ _ (by decide) (.inr (.inl ⟨_, rfl⟩))).trans read
  · have moved := inserted "1\n".toList "  ".toList "# 5".toList " 2\n3 4".toList
      (.inr ⟨['1'], rfl⟩) (by decide) (by decide) (.inr ⟨_, rfl⟩)
    rw [moved]
    decide

end Image

end CipherMachine
