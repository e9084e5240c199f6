import CipherMachine.Proofs.Image.Grammar
import CipherMachine.Proofs.Outcome

set_option autoImplicit false

/-!
Reading a text line by line gives what its grammar says.
-/

namespace CipherMachine

namespace Item

variable (items : List Item) (item : Item)

theorem findSome?_concat {α : Type} (f : Item → Option α) :
    (items ++ [item]).reverse.findSome? f = (f item).or (items.reverse.findSome? f) := by
  rw [List.reverse_concat, List.findSome?_cons]
  cases f item <;> rfl

theorem nextAddress_concat : nextAddress (items ++ [item]) =
    match item with
    | .origin address => address
    | .word _ => nextAddress items + 1
    | _ => nextAddress items := by
  unfold nextAddress
  rw [findSome?_concat, List.reverse_concat, List.takeWhile_cons]
  cases item <;> simp [origin?, word?, Nat.add_assoc]

theorem placements_concat : placements (items ++ [item]) =
    placements items ++ (item.word?.map fun word => (nextAddress items, word)).toList := by
  have before : ∀ p ∈ items.zipIdx, (p.1.word?.map fun word =>
      (nextAddress ((items ++ [item]).take p.2), word)) =
      p.1.word?.map fun word => (nextAddress (items.take p.2), word) := by
    intro p member
    have bound := List.snd_lt_of_mem_zipIdx member
    rw [List.take_append_of_le_length (by omega)]
  unfold placements
  rw [List.zipIdx_append, List.filterMap_append, List.filterMap_congr before]
  cases item <;> simp [word?]

variable {items item} {image next : Image}

/-- An item that places nothing leaves the words. -/
theorem Denotes.concat (denotes : Denotes items image) (other : item.word? = none)
    (pc : next.pc = item.pc?.getD image.pc) (ac : next.ac = item.ac?.getD image.ac)
    (words : next.words = image.words) : Denotes (items ++ [item]) next := by
  have placed : placements (items ++ [item]) = placements items := by
    rw [placements_concat, other]
    exact List.append_nil _
  constructor
  · rw [pc, denotes.pc, findSome?_concat]
    cases item.pc? <;> rfl
  · rw [ac, denotes.ac, findSome?_concat]
    cases item.ac? <;> rfl
  · rw [placed, words]
    exact denotes.below
  · rw [placed, words]
    exact denotes.reached
  · rw [placed, words]
    exact denotes.words

/-- The words hold the last placement of every address, also of those past their end. -/
theorem Denotes.getD_words (denotes : Denotes items image) (address : Nat) :
    image.words[address]?.getD 0 = ((placements items).reverse.lookup address).getD 0 := by
  by_cases within : address < image.words.length
  · rw [denotes.words address within]
    rfl
  · have absent : (placements items).reverse.lookup address = none := by
      rw [List.lookup_eq_none_iff]
      intro p placed
      have below := denotes.below p (List.mem_reverse.mp placed)
      rw [bne_iff_ne]
      omega
    rw [absent, List.getElem?_eq_none (Nat.not_lt.mp within)]

theorem Denotes.length_le (denotes : Denotes items image) (other : Denotes items next) :
    image.words.length ≤ next.words.length := by
  rcases denotes.reached with empty | ⟨p, placed, last⟩
  · omega
  · have below := other.below p placed
    omega

theorem Denotes.unique (denotes : Denotes items image) (other : Denotes items next) :
    image = next := by
  have length : image.words.length = next.words.length :=
    Nat.le_antisymm (denotes.length_le other) (other.length_le denotes)
  have words : image.words = next.words := by
    apply List.ext_getElem?
    intro address
    by_cases within : address < image.words.length
    · rw [denotes.words address within, other.words address (length ▸ within)]
    · rw [List.getElem?_eq_none (Nat.not_lt.mp within),
        List.getElem?_eq_none (length ▸ Nat.not_lt.mp within)]
  have pc : image.pc = next.pc := denotes.pc.trans other.pc.symm
  have ac : image.ac = next.ac := denotes.ac.trans other.ac.symm
  cases image
  cases next
  simp only at words pc ac
  rw [words, pc, ac]

end Item

namespace Line

theorem faultAt_length (before rest : List Line) (line : Line) :
    faultAt (before ++ line :: rest) before.length =
      line.fault? (Item.nextAddress (before.map item)) := by
  unfold faultAt
  rw [List.getElem?_append_right (Nat.le_refl _), Nat.sub_self, List.take_left]
  rfl

theorem FirstFault.unique {lines : List Line} {first second : ReadError}
    (is_first : FirstFault lines first) (is_second : FirstFault lines second) : first = second := by
  obtain ⟨i, number, fault, calm⟩ := is_first
  obtain ⟨j, number', fault', calm'⟩ := is_second
  have same : i = j := by
    rcases Nat.lt_trichotomy i j with less | same | more
    · rw [calm' i less] at fault
      cases fault
    · exact same
    · rw [calm j more] at fault'
      cases fault'
  subst same
  cases first
  cases second
  simp only at number number' fault fault'
  rw [number, number', Option.some.inj (fault.symm.trans fault')]

theorem readWord_eq (token : List Char) : Image.readWord token =
    match numberFault? token with
    | some fault => .error fault
    | none => .ok (number token) := by
  unfold Image.readWord numberFault? number
  cases Image.numeral? token with
  | none => rfl
  | some value =>
      by_cases fits : value < Nat.pow 2 16
      · have small : value < UInt16.size := fits
        dsimp only
        rw [if_pos fits, if_pos small]
        rfl
      · have large : ¬ value < UInt16.size := fits
        dsimp only
        rw [if_neg fits, if_neg large]

end Line

namespace Draft

def add (d : Draft) : Item → Draft
  | .blank => d
  | .pc value => { d with image := { d.image with pc := value } }
  | .ac value => { d with image := { d.image with ac := value } }
  | .origin address => { d with cursor := address }
  | .word word =>
    { image := { d.image with
        words := (d.image.words.rightpad (d.cursor + 1) 0).set d.cursor word }
      cursor := d.cursor + 1 }

theorem direct_eq (d : Draft) (name token : List Char) (rest : Line) :
    d.direct name (Line.number token) =
      if '.' :: name ∈ Line.directives then .ok (d.add (Line.item (('.' :: name) :: token :: rest)))
      else .error (.unknownDirective (String.ofList ('.' :: name))) := by
  unfold direct
  split
  · rfl
  · rfl
  · rfl
  · rename_i pc ac org
    rw [if_neg]
    simpa [Line.directives] using ⟨pc, ac, org⟩

theorem ended_eq (rest : Line) : ended rest =
    match rest[0]?.map fun token => LineFault.trailingInput (String.ofList token) with
    | some fault => .error fault
    | none => .ok () := by
  cases rest <;> rfl

theorem place_eq (d : Draft) (word : UInt16) : d.place word =
    if d.cursor < Nat.pow 2 maxAddressBits then .ok (d.add (.word word))
    else .error (.addressOutOfRange d.cursor) := rfl

/-- A line is read as its grammar says: its first fault, or its item added to the draft. -/
theorem readTokens_eq (d : Draft) (line : Line) : d.readTokens line =
    match line.fault? d.cursor with
    | some fault => .error fault
    | none => .ok (d.add line.item) := by
  rcases line with _ | ⟨first, rest⟩
  · rfl
  · by_cases dot : first.head? = some '.'
    · obtain ⟨name, rfl⟩ := List.head?_eq_some_iff.mp dot
      rcases rest with _ | ⟨token, rest⟩
      · rfl
      · rw [readTokens, Line.readWord_eq]
        unfold Line.fault? Line.checks
        cases number : Line.numberFault? token with
        | some fault => simp [number, Bind.bind, Except.bind]
        | none =>
          have directed := d.direct_eq name token rest
          by_cases known : '.' :: name ∈ Line.directives
          · rw [if_pos known] at directed
            cases rest <;> simp [number, known, directed, ended_eq, Bind.bind, Except.bind,
              Pure.pure, Except.pure]
          · rw [if_neg known] at directed
            simp [number, known, directed, Bind.bind, Except.bind]
    · have directive : ∀ name, first ≠ '.' :: name := by
        rintro name rfl
        exact dot rfl
      have read : d.readTokens (first :: rest) = (do
          let word ← Image.readWord first
          let next ← d.place word
          ended rest
          return next) := by
        rw [readTokens]
        · intro name dotted _
          exact directive name dotted
        · intro name token more dotted _
          exact directive name dotted
      have item : Line.item (first :: rest) = .word (Line.number first) := by
        simp [Line.item, directive]
      rw [read, item, Line.readWord_eq, ended_eq]
      unfold Line.fault? Line.checks
      cases number : Line.numberFault? first with
      | some fault => simp [number, dot, Bind.bind, Except.bind]
      | none =>
        have placed := d.place_eq (Line.number first)
        by_cases inside : d.cursor < Nat.pow 2 maxAddressBits
        · rw [if_pos inside] at placed ⊢
          cases rest <;> simp [number, dot, placed, Bind.bind, Except.bind, Pure.pure, Except.pure]
        · rw [if_neg inside] at placed ⊢
          simp [number, dot, placed, Bind.bind, Except.bind]

/-- The draft is what the items before it denote. -/
structure Follows (d : Draft) (items : List Item) : Prop where
  cursor : d.cursor = Item.nextAddress items
  image : Item.Denotes items d.image

theorem follows_nil : Follows {} [] where
  cursor := rfl
  image := {
    pc := rfl
    ac := rfl
    below := fun _ placed => nomatch placed
    reached := .inl rfl
    words := fun _ within => nomatch within }

variable {d : Draft} {items : List Item}

theorem length_place (d : Draft) (word : UInt16) :
    (d.add (.word word)).image.words.length = max (d.cursor + 1) d.image.words.length := by
  simp only [add, List.length_set, List.rightpad, List.length_append, List.length_replicate]
  omega

/-- A placed word stands in its cell, and all other cells are as they were. Those that are new are
zero. -/
theorem getElem?_place (d : Draft) (word : UInt16) {address : Nat}
    (within : address < (d.add (.word word)).image.words.length) :
    (d.add (.word word)).image.words[address]? =
      some (if address = d.cursor then word else d.image.words[address]?.getD 0) := by
  rw [length_place] at within
  simp only [add, List.getElem?_set, List.rightpad, List.length_append, List.length_replicate]
  by_cases here : d.cursor = address
  · subst here
    have inside : d.cursor < d.image.words.length + (d.cursor + 1 - d.image.words.length) := by
      omega
    rw [if_pos rfl, if_pos inside, if_pos rfl]
  · rw [if_neg here, if_neg (Ne.symm here), List.getElem?_append]
    by_cases old : address < d.image.words.length
    · rw [if_pos old, List.getElem?_eq_getElem old, Option.getD_some]
    · have new : address - d.image.words.length < d.cursor + 1 - d.image.words.length := by omega
      rw [if_neg old, List.getElem?_replicate_of_lt new,
        List.getElem?_eq_none (Nat.not_lt.mp old), Option.getD_none]

/-- Placing a word adds a placement behind all others. -/
theorem Follows.place (follows : d.Follows items) (word : UInt16) :
    (d.add (.word word)).Follows (items ++ [.word word]) := by
  have image := follows.image
  have placements : Item.placements (items ++ [.word word]) =
      Item.placements items ++ [(d.cursor, word)] := by
    rw [Item.placements_concat, follows.cursor]
    rfl
  have length := d.length_place word
  refine ⟨?_, ?_, ?_, ?_, ?_, ?_⟩
  · rw [Item.nextAddress_concat, ← follows.cursor]
    rfl
  · rw [Item.findSome?_concat]
    exact image.pc
  · rw [Item.findSome?_concat]
    exact image.ac
  · intro p placed
    rw [placements, List.mem_append, List.mem_singleton] at placed
    rcases placed with earlier | rfl
    · have below := image.below p earlier
      omega
    · dsimp only
      omega
  · right
    rw [placements, length]
    by_cases longer : d.cursor + 1 ≤ d.image.words.length
    · rcases image.reached with empty | ⟨p, placed, last⟩
      · omega
      · exact ⟨p, List.mem_append_left _ placed, by omega⟩
    · exact ⟨(d.cursor, word), List.mem_append_right _ List.mem_cons_self, by omega⟩
  · intro address within
    rw [d.getElem?_place word within, placements, List.reverse_concat, List.lookup_cons]
    by_cases here : address = d.cursor
    · rw [if_pos here, beq_iff_eq.mpr here]
      rfl
    · rw [if_neg here, beq_false_of_ne here]
      exact congrArg some (image.getD_words address)

/-- Adding an item to the draft goes along with adding it to the items. -/
theorem Follows.add (follows : d.Follows items) (item : Item) :
    (d.add item).Follows (items ++ [item]) := by
  have next := Item.nextAddress_concat items item
  cases item with
  | word word => exact follows.place word
  | blank => exact ⟨follows.cursor.trans next.symm, follows.image.concat rfl rfl rfl rfl⟩
  | pc value => exact ⟨follows.cursor.trans next.symm, follows.image.concat rfl rfl rfl rfl⟩
  | ac value => exact ⟨follows.cursor.trans next.symm, follows.image.concat rfl rfl rfl rfl⟩
  | origin address => exact ⟨next.symm, follows.image.concat rfl rfl rfl rfl⟩

/-- The lines left to read, behind lines without a fault that have made the draft. The induction is
on the lines that are left. -/
theorem Follows.readLines (before : List Line) (follows : d.Follows (before.map Line.item))
    (lines : List (List Char))
    (calm : ∀ i < before.length, Line.faultAt (before ++ lines.map Text.content) i = none) :
    Outcome (Line.FirstFault (before ++ lines.map Text.content))
      (fun final => (∀ i, Line.faultAt (before ++ lines.map Text.content) i = none) ∧
        final.Follows ((before ++ lines.map Text.content).map Line.item))
      (d.readLines (before.length + 1) lines) := by
  induction lines generalizing d before with
  | nil =>
      rw [List.map_nil, List.append_nil] at calm ⊢
      refine ⟨fun i => ?_, follows⟩
      by_cases within : i < before.length
      · exact calm i within
      · unfold Line.faultAt
        rw [List.getElem?_eq_none (Nat.not_lt.mp within)]
        rfl
  | cons line rest ih =>
      have here := Line.faultAt_length before (rest.map Text.content) (Text.content line)
      rw [← follows.cursor] at here
      rw [List.map_cons] at calm ⊢
      have read := d.readTokens_eq (Text.content line)
      change d.readTokens (Text.tokens (Text.withoutComment line)) = _ at read
      rw [Draft.readLines]
      cases fault : (Text.content line).fault? d.cursor with
      | some fault' =>
          rw [fault] at read here
          rw [read]
          exact ⟨before.length, rfl, here, calm⟩
      | none =>
          rw [fault] at read here
          rw [read]
          have next : (d.add (Text.content line).item).Follows
              ((before ++ [Text.content line]).map Line.item) := by
            rw [List.map_append]
            exact follows.add _
          have length : (before ++ [Text.content line]).length = before.length + 1 := by simp
          rw [List.append_cons] at calm here ⊢
          have passed := ih _ next ?_
          · rw [length] at passed
            exact passed
          · intro i within
            rw [length] at within
            by_cases earlier : i < before.length
            · exact calm i earlier
            · have last : i = before.length := by omega
              rw [last]
              exact here

end Draft

/-- A text is refused if and only if some line has a fault, with that of the first such line.
Otherwise the image that is read is the one that the items of its lines denote. -/
theorem Image.read_exact (text : List Char) :
    (∀ error, Image.read text = .error error ↔ Line.FirstFault (Text.contents text) error) ∧
      ∀ image, Image.read text = .ok image ↔
        (∀ i, Line.faultAt (Text.contents text) i = none) ∧
          Item.Denotes ((Text.contents text).map Line.item) image := by
  have reading := Draft.Follows.readLines [] Draft.follows_nil (Text.lines text)
    fun _ below => nomatch below
  change Outcome (Line.FirstFault (Text.contents text)) (fun final =>
    (∀ i, Line.faultAt (Text.contents text) i = none) ∧
      final.Follows ((Text.contents text).map Line.item)) (Draft.readLines {} 1 _) at reading
  have outcome : Outcome (Line.FirstFault (Text.contents text)) (fun image =>
      (∀ i, Line.faultAt (Text.contents text) i = none) ∧
        Item.Denotes ((Text.contents text).map Line.item) image) (Image.read text) := by
    apply Outcome.map
    apply reading.mono
    rintro final ⟨calm, follows⟩
    exact ⟨calm, follows.image⟩
  refine outcome.determines ?_ (fun _ _ => Line.FirstFault.unique) ?_
  · rintro error image ⟨i, _, fault, _⟩ ⟨calm, _⟩
    rw [calm i] at fault
    cases fault
  · rintro image image' ⟨_, denotes⟩ ⟨_, denotes'⟩
    exact denotes.unique denotes'

example : Image.read ".org 2 # a gap\n7\n8\n.org 0\n9\n.pc 1".toList =
    .ok ⟨1, 0, [9, 0, 7, 8]⟩ := by
  decide

end CipherMachine
