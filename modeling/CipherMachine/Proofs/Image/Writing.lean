import CipherMachine.Proofs.Bytes
import CipherMachine.Proofs.Image.Layout
import CipherMachine.Proofs.Image.Reading
import CipherMachine.Proofs.Text.Numerals
import Mathlib.Data.List.Induction

set_option autoImplicit false

/-!
Writing images: an image of no more words than there are addresses has a text, which may hold its
words in blocks of any size and order and its numbers in any spelling, and is read as the image.
-/

namespace CipherMachine

open Text

namespace Item

/-- The lines of an item, one for each way to write its number. -/
inductive Written : Item → List Char → Prop
  | pc {value : UInt16} {token : List Char} (numeral : Numeral value.toNat token) :
      Written (.pc value) (".pc ".toList ++ token)
  | ac {value : UInt16} {token : List Char} (numeral : Numeral value.toNat token) :
      Written (.ac value) (".ac ".toList ++ token)
  | origin {address : Nat} {token : List Char} (numeral : Numeral address token) :
      Written (.origin address) (".org ".toList ++ token)
  | word {value : UInt16} {token : List Char} (numeral : Numeral value.toNat token) :
      Written (.word value) token

end Item

namespace Text

variable {n : Nat} {token : List Char}

theorem Numeral.tokens_eq (numeral : Numeral n token) : tokens token = [token] :=
  tokens_single numeral.ne_nil numeral.no_blank

theorem Numeral.no_comment (numeral : Numeral n token) : '#' ∉ token :=
  numeral.not_mem (by decide) (by decide)

theorem Numeral.content_eq (numeral : Numeral n token) : content token = [token] := by
  rw [content, withoutComment_eq_self numeral.no_comment, numeral.tokens_eq]

/-- A directive's line holds its name and its value. -/
theorem Numeral.content_directive (numeral : Numeral n token) {name : List Char}
    (some_character : name ≠ []) (solid : name.any isBlank = false) (bare : '#' ∉ name) :
    content (name ++ ' ' :: token) = [name, token] := by
  have bare' : '#' ∉ ' ' :: token :=
    List.not_mem_cons_of_ne_of_not_mem (by decide) numeral.no_comment
  rw [content, withoutComment_append, if_neg bare, withoutComment_eq_self bare',
    tokens_append_cons name token (by decide), tokens_single some_character solid,
    numeral.tokens_eq]
  rfl

theorem Numeral.readWord_eq (numeral : Numeral n token) (small : n < UInt16.size) :
    Image.readWord token = .ok (UInt16.ofNat n) := by
  have below : n < 2 ^ 64 := Nat.lt_of_lt_of_le small (by decide)
  rw [Image.readWord, numeral.numeral?_eq below]
  exact if_pos small

end Text

namespace Draft

/-- What an item asks of the draft that it is added to: a word needs an address, and an origin has
to fit a word. -/
def Accepts (d : Draft) : Item → Prop
  | .word _ => d.cursor < 2 ^ maxAddressBits
  | .origin address => address < UInt16.size
  | _ => True

theorem readTokens_directive (d : Draft) (name : List Char) {n : Nat} {token : List Char}
    (numeral : Numeral n token) (small : n < UInt16.size)
    (solid : ('.' :: name).any isBlank = false) (bare : '#' ∉ '.' :: name) :
    d.readTokens (content ('.' :: name ++ ' ' :: token)) = d.direct name (UInt16.ofNat n) := by
  rw [numeral.content_directive (List.cons_ne_nil _ _) solid bare, readTokens,
    numeral.readWord_eq small]
  change (d.direct name (UInt16.ofNat n) >>= pure) = _
  exact bind_pure _

theorem readTokens_numeral (d : Draft) {n : Nat} {token : List Char} (numeral : Numeral n token)
    (small : n < UInt16.size) :
    d.readTokens (content token) = d.place (UInt16.ofNat n) := by
  obtain ⟨c, rest, rfl⟩ := List.exists_cons_of_ne_nil numeral.ne_nil
  have dots : '.' ∉ c :: rest := numeral.not_mem (by decide) (by decide)
  have no_dot : c ≠ '.' := (List.ne_of_not_mem_cons dots).symm
  rw [numeral.content_eq, readTokens, numeral.readWord_eq small]
  · change (d.place (UInt16.ofNat n) >>= pure) = _
    exact bind_pure _
  · intro name same
    exact absurd (List.cons.inj same).1 no_dot
  · intro name token more same
    exact absurd (List.cons.inj same).1 no_dot

theorem Accepts.readTokens {d : Draft} {item : Item} {line : List Char} (accepts : d.Accepts item)
    (written : item.Written line) : d.readTokens (content line) = .ok (d.add item) := by
  cases written with
  | @pc value token numeral =>
      have read := d.readTokens_directive "pc".toList numeral value.toNat_lt (by decide) (by decide)
      rwa [UInt16.ofNat_toNat] at read
  | @ac value token numeral =>
      have read := d.readTokens_directive "ac".toList numeral value.toNat_lt (by decide) (by decide)
      rwa [UInt16.ofNat_toNat] at read
  | @origin address token numeral =>
      have read := d.readTokens_directive "org".toList numeral accepts (by decide) (by decide)
      have moved : d.direct "org".toList (UInt16.ofNat address) =
          .ok { d with cursor := (UInt16.ofNat address).toNat } := rfl
      have same : (UInt16.ofNat address).toNat = address := Nat.mod_eq_of_lt accepts
      rw [moved, same] at read
      exact read
  | @word value token numeral =>
      have read := d.readTokens_numeral numeral value.toNat_lt
      rw [UInt16.ofNat_toNat, place_eq] at read
      exact read.trans (if_pos accepts)

theorem Accepts.readLines {d : Draft} {item : Item} {line : List Char} (accepts : d.Accepts item)
    (written : item.Written line) (number : Nat) (rest : List (List Char)) :
    d.readLines number (line :: rest) = (d.add item).readLines (number + 1) rest := by
  have read := accepts.readTokens written
  change d.readTokens (tokens (withoutComment line)) = _ at read
  rw [Draft.readLines, read]

end Draft

namespace Item

theorem mem_placements_append {items : List Item} {p : Nat × UInt16} (placed : p ∈ placements items)
    (more : List Item) : p ∈ placements (items ++ more) := by
  induction more using List.reverseRecOn with
  | nil => rwa [List.append_nil]
  | append_singleton more item ih =>
      rw [← List.append_assoc, placements_concat]
      exact List.mem_append_left _ ih

/-- The words of a block stand behind its origin. -/
theorem placements_block (items : List Item) (start : Nat) (block : List UInt16) :
    nextAddress (items ++ .origin start :: block.map .word) = start + block.length ∧
      placements (items ++ .origin start :: block.map .word) =
        placements items ++ (block.zipIdx start).map Prod.swap := by
  induction block using List.reverseRecOn with
  | nil => exact ⟨nextAddress_concat items _, placements_concat items _⟩
  | append_singleton block word ih =>
      have last : items ++ .origin start :: (block ++ [word]).map .word =
          (items ++ .origin start :: block.map .word) ++ [.word word] := by simp
      rw [last, nextAddress_concat, placements_concat, ih.1, ih.2]
      simp [List.zipIdx_append, word?, Nat.add_assoc]

/-- The items of consecutive blocks of words, each block behind its origin. -/
def blocks (start : Nat) : List (List UInt16) → List (List Item)
  | [] => []
  | block :: rest => (.origin start :: block.map .word) :: blocks (start + block.length) rest

theorem flatMap_placements_blocks (start : Nat) (cut : List (List UInt16)) :
    (blocks start cut).flatMap placements = (cut.flatten.zipIdx start).map Prod.swap := by
  induction cut generalizing start with
  | nil => rfl
  | cons block rest ih =>
      have first := (placements_block [] start block).2
      rw [List.nil_append, show placements [] = [] from rfl, List.nil_append] at first
      rw [blocks, List.flatMap_cons, first, ih, List.flatten_cons, List.zipIdx_append,
        List.map_append]

theorem mem_blocks {start : Nat} {cut : List (List UInt16)} {part : List Item}
    (member : part ∈ blocks start cut) : ∃ (address : Nat) (block : List UInt16),
      part = .origin address :: block.map .word ∧ address ≤ start + cut.flatten.length := by
  induction cut generalizing start with
  | nil => cases member
  | cons block rest ih =>
      rw [List.flatten_cons, List.length_append]
      rcases List.mem_cons.mp member with rfl | later
      · exact ⟨start, block, rfl, Nat.le_add_right _ _⟩
      · obtain ⟨address, block', rfl, bound⟩ := ih later
        exact ⟨address, block', rfl, by omega⟩

end Item

/-- The parts of an image's text: its registers and the blocks that its words are cut into. -/
def Image.parts (image : Image) (cut : List (List UInt16)) : List (List Item) :=
  [.pc image.pc] :: [.ac image.ac] :: Item.blocks 0 cut

namespace Image

variable {image : Image} {cut : List (List UInt16)} {parts : List (List Item)}

/-- A part places its words wherever it stands. -/
theorem placements_part {part : List Item} (member : part ∈ image.parts cut) (items : List Item) :
    Item.placements (items ++ part) = Item.placements items ++ Item.placements part := by
  rcases List.mem_cons.mp member with rfl | member
  · exact Item.placements_concat items _
  · rcases List.mem_cons.mp member with rfl | member
    · exact Item.placements_concat items _
    · obtain ⟨address, block, rfl, _⟩ := Item.mem_blocks member
      have alone := (Item.placements_block [] address block).2
      rw [List.nil_append] at alone
      rw [(Item.placements_block items address block).2, alone]
      rfl

theorem placements_flatten (known : ∀ part ∈ parts, part ∈ image.parts cut) (items : List Item) :
    Item.placements (items ++ parts.flatten) =
      Item.placements items ++ parts.flatMap Item.placements := by
  induction parts generalizing items with
  | nil => simp
  | cons part rest ih =>
      obtain ⟨here, others⟩ := List.forall_mem_cons.mp known
      rw [List.flatten_cons, ← List.append_assoc, ih others, placements_part here,
        List.flatMap_cons, List.append_assoc]

/-- In whatever order the parts stand, each word is placed at its own address, and nothing else. -/
theorem mem_placements_parts (order : parts.Perm (image.parts cut))
    (words : cut.flatten = image.words) (p : Nat × UInt16) :
    p ∈ Item.placements parts.flatten ↔ image.words[p.1]? = some p.2 := by
  have placed := placements_flatten (fun part => order.mem_iff.mp) []
  rw [List.nil_append, show Item.placements [] = [] from rfl, List.nil_append] at placed
  have blocks : (image.parts cut).flatMap Item.placements = image.words.zipIdx.map Prod.swap := by
    rw [← words]
    exact Item.flatMap_placements_blocks 0 cut
  rw [placed, (order.flatMap_right _).mem_iff, blocks]
  obtain ⟨address, word⟩ := p
  simp [List.mem_zipIdx_iff_getElem?]

/-- The items of an image, in whatever order its parts stand: its registers, each set once, and
origins that are addresses or one past them, and words. -/
theorem mem_parts (order : parts.Perm (image.parts cut)) (words : cut.flatten = image.words)
    {item : Item} (member : item ∈ parts.flatten) :
    item = .pc image.pc ∨ item = .ac image.ac ∨
      (∃ address ≤ image.words.length, item = .origin address) ∨ ∃ word, item = .word word := by
  obtain ⟨part, among, inside⟩ := List.mem_flatten.mp member
  rcases List.mem_cons.mp (order.mem_iff.mp among) with rfl | among
  · exact .inl (List.mem_singleton.mp inside)
  · rcases List.mem_cons.mp among with rfl | among
    · exact .inr (.inl (List.mem_singleton.mp inside))
    · obtain ⟨address, block, rfl, bound⟩ := Item.mem_blocks among
      rw [Nat.zero_add, words] at bound
      rcases List.mem_cons.mp inside with rfl | inside
      · exact .inr (.inr (.inl ⟨address, bound, rfl⟩))
      · obtain ⟨word, _, rfl⟩ := List.mem_map.mp inside
        exact .inr (.inr (.inr ⟨word, rfl⟩))

end Image

theorem findSome?_eq_of_unique {α β : Type} {f : α → Option β} {l : List α} {b : β}
    (found : ∃ a ∈ l, f a = some b) (only : ∀ a ∈ l, ∀ c, f a = some c → c = b) :
    l.findSome? f = some b := by
  obtain ⟨a, member, answer⟩ := found
  cases first : l.findSome? f with
  | none =>
      rw [List.findSome?_eq_none_iff.mp first a member] at answer
      cases answer
  | some c =>
      obtain ⟨a', member', answer'⟩ := List.exists_of_findSome?_eq_some first
      rw [only a' member' c answer']

/-- Items that set each register to the image's, and place the image's words and nothing else,
denote the image. -/
theorem Item.denotes_of_placements {items : List Item} {image : Image}
    (pc : .pc image.pc ∈ items) (only_pc : ∀ value, .pc value ∈ items → value = image.pc)
    (ac : .ac image.ac ∈ items) (only_ac : ∀ value, .ac value ∈ items → value = image.ac)
    (placed : ∀ p, p ∈ placements items ↔ image.words[p.1]? = some p.2) :
    Denotes items image := by
  have below : ∀ p ∈ placements items, p.1 < image.words.length := fun p member =>
    (List.getElem?_eq_some_iff.mp ((placed p).mp member)).1
  refine ⟨?_, ?_, below, ?_, ?_⟩
  · rw [findSome?_eq_of_unique (b := image.pc), Option.getD_some]
    · exact ⟨_, List.mem_reverse.mpr pc, rfl⟩
    · intro item member value answer
      cases item <;> cases answer
      exact only_pc value (List.mem_reverse.mp member)
  · rw [findSome?_eq_of_unique (b := image.ac), Option.getD_some]
    · exact ⟨_, List.mem_reverse.mpr ac, rfl⟩
    · intro item member value answer
      cases item <;> cases answer
      exact only_ac value (List.mem_reverse.mp member)
  · rcases Nat.eq_zero_or_pos image.words.length with empty | positive
    · exact .inl empty
    · have last : image.words.length - 1 < image.words.length := by omega
      refine .inr ⟨(_, _), (placed _).mpr (List.getElem?_eq_getElem last), ?_⟩
      dsimp only
      omega
  · intro address within
    rw [List.lookup_eq_findSome?, findSome?_eq_of_unique (b := image.words[address])]
    · exact List.getElem?_eq_getElem within
    · refine ⟨(address, image.words[address]), List.mem_reverse.mpr ?_, ?_⟩
      · exact (placed _).mpr (List.getElem?_eq_getElem within)
      · simp
    · intro p member word answer
      have held := (placed p).mp (List.mem_reverse.mp member)
      by_cases here : address = p.1
      · rw [if_pos (beq_iff_eq.mpr here)] at answer
        obtain rfl := Option.some.inj answer
        subst here
        rw [List.getElem?_eq_getElem within] at held
        exact (Option.some.inj held).symm
      · rw [beq_false_of_ne here] at answer
        cases answer

namespace Draft

variable {d : Draft} {before items : List Item} {lines : List (List Char)}

/-- Lines that are written for items are read as the items, as long as every word has an address.
The induction is on the lines that are left. -/
theorem Follows.readLines_written (follows : d.Follows before)
    (written : List.Forall₂ Item.Written items lines)
    (addresses : ∀ p ∈ Item.placements (before ++ items), p.1 < 2 ^ maxAddressBits)
    (origins : ∀ address, .origin address ∈ items → address < UInt16.size) (number : Nat) :
    ∃ final, d.readLines number lines = .ok final ∧ final.Follows (before ++ items) := by
  induction written generalizing d before number with
  | nil =>
      rw [List.append_nil]
      exact ⟨d, rfl, follows⟩
  | @cons item line items lines head _ ih =>
      rw [List.append_cons] at addresses ⊢
      have accepts : d.Accepts item := by
        cases item with
        | word word =>
            apply addresses (d.cursor, word)
            apply Item.mem_placements_append
            rw [Item.placements_concat, follows.cursor]
            exact List.mem_append_right _ List.mem_cons_self
        | origin address => exact origins address List.mem_cons_self
        | _ => trivial
      rw [accepts.readLines head]
      exact ih (follows.add item) addresses
        (fun address later => origins address (List.mem_cons_of_mem _ later)) (number + 1)

def Bounded (d : Draft) : Prop := d.image.words.length ≤ 2 ^ maxAddressBits

theorem Bounded.place (bounded : d.Bounded) (word : UInt16) :
    Outcome (fun _ => True) Bounded (d.place word) := by
  rw [place_eq]
  by_cases below : d.cursor < Nat.pow 2 maxAddressBits
  · rw [if_pos below]
    change (d.add (.word word)).image.words.length ≤ _
    rw [length_place]
    exact Nat.max_le.mpr ⟨below, bounded⟩
  · rw [if_neg below]
    trivial

theorem Bounded.direct (bounded : d.Bounded) (name : List Char) (value : UInt16) :
    Outcome (fun _ => True) Bounded (d.direct name value) := by
  unfold Draft.direct
  split
  · exact bounded
  · exact bounded
  · exact bounded
  · trivial

theorem Bounded.readTokens (bounded : d.Bounded) (line : Line) :
    Outcome (fun _ => True) Bounded (d.readTokens line) := by
  have ended : ∀ {next : Draft}, next.Bounded → ∀ rest,
      Outcome (fun _ => True) Bounded (Draft.ended rest >>= fun _ => pure next) :=
    fun kept rest => (Outcome.any fun _ => trivial).bind fun _ _ => kept
  fun_cases Draft.readTokens d line with
  | case1 => exact bounded
  | case2 => trivial
  | case3 name token rest =>
      refine (Outcome.any fun _ => trivial).bind fun value _ => ?_
      exact (bounded.direct name value).bind fun next kept => ended kept rest
  | case4 token rest =>
      refine (Outcome.any fun _ => trivial).bind fun word _ => ?_
      exact (bounded.place word).bind fun next kept => ended kept rest

theorem Bounded.readLines (bounded : d.Bounded) (number : Nat) (lines : List (List Char)) :
    Outcome (fun _ => True) Bounded (d.readLines number lines) := by
  induction lines generalizing d number with
  | nil => exact bounded
  | cons line rest ih =>
      have read := bounded.readTokens (tokens (withoutComment line))
      rw [Draft.readLines]
      cases answer : d.readTokens (tokens (withoutComment line)) with
      | ok next =>
          rw [answer] at read
          exact ih read (number + 1)
      | error fault => trivial

end Draft

theorem Item.Written.single {item : Item} {line : List Char} (written : item.Written line) :
    '\n' ∉ line := by
  have numeral : ∀ {n token}, Numeral n token → '\n' ∉ token := fun numeral =>
    numeral.not_mem (by decide) (by decide)
  cases written with
  | word value => exact numeral value
  | _ value => simpa using numeral value

theorem Item.single_of_written {items : List Item} {lines : List (List Char)}
    (written : List.Forall₂ Written items lines) : ∀ line ∈ lines, '\n' ∉ line := by
  induction written with
  | nil => exact fun line absent => nomatch absent
  | cons head _ ih => exact List.forall_mem_cons.mpr ⟨head.single, ih⟩

theorem Item.exists_written {items : List Item} (marked : .blank ∉ items) :
    ∃ lines, List.Forall₂ Written items lines := by
  induction items with
  | nil => exact ⟨[], .nil⟩
  | cons item rest ih =>
      rw [List.mem_cons, not_or] at marked
      obtain ⟨lines, written⟩ := ih marked.2
      cases item with
      | blank => exact absurd rfl marked.1
      | pc value => exact ⟨_, .cons (.pc (.decimal 0)) written⟩
      | ac value => exact ⟨_, .cons (.ac (.decimal 0)) written⟩
      | origin address => exact ⟨_, .cons (.origin (.decimal 0)) written⟩
      | word value => exact ⟨_, .cons (.word (.decimal 0)) written⟩

namespace Image

/-- The texts of an image: its parts in any order, with its words cut into any blocks and its
numbers written in any way, one item a line. -/
def WrittenAs (image : Image) (text : List Char) : Prop :=
  ∃ (cut : List (List UInt16)) (parts : List (List Item)) (lines : List (List Char)),
    cut.flatten = image.words ∧ parts.Perm (image.parts cut) ∧
      List.Forall₂ Item.Written parts.flatten lines ∧ text = lines.flatMap (· ++ ['\n'])

theorem WrittenAs.read {image : Image} {text : List Char} (written : image.WrittenAs text)
    (small : image.words.length ≤ 2 ^ maxAddressBits) : Image.read text = .ok image := by
  obtain ⟨cut, parts, lines, words, order, written, rfl⟩ := written
  have placed := mem_placements_parts order words
  have member : ∀ {part item}, part ∈ image.parts cut → item ∈ part → item ∈ parts.flatten :=
    fun among inside => List.mem_flatten.mpr ⟨_, order.mem_iff.mpr among, inside⟩
  have denotes : Item.Denotes parts.flatten image := by
    refine Item.denotes_of_placements ?_ ?_ ?_ ?_ placed
    · exact member List.mem_cons_self List.mem_cons_self
    · intro value inside
      simpa using mem_parts order words inside
    · exact member (List.mem_cons_of_mem _ List.mem_cons_self) List.mem_cons_self
    · intro value inside
      simpa using mem_parts order words inside
  have addresses : ∀ p ∈ Item.placements ([] ++ parts.flatten), p.1 < 2 ^ maxAddressBits :=
    fun p held => Nat.lt_of_lt_of_le (List.getElem?_eq_some_iff.mp ((placed p).mp held)).1 small
  have origins : ∀ address, .origin address ∈ parts.flatten → address < UInt16.size := by
    intro address inside
    have bound : address ≤ image.words.length := by simpa using mem_parts order words inside
    exact Nat.lt_of_le_of_lt (Nat.le_trans bound small) (by decide)
  obtain ⟨final, read, follows⟩ := Draft.follows_nil.readLines_written written addresses origins 1
  rw [read_eq_rows, rows_flatMap (Item.single_of_written written),
    Draft.readLines_concat_blank _ _ _ rfl, read]
  exact congrArg Except.ok (follows.image.unique denotes)

theorem exists_writtenAs (image : Image) : ∃ text, image.WrittenAs text := by
  have words : [image.words].flatten = image.words := List.flatten_singleton
  have marked : .blank ∉ (image.parts [image.words]).flatten := by
    intro blank
    simpa using mem_parts (List.Perm.refl _) words blank
  obtain ⟨lines, written⟩ := Item.exists_written marked
  exact ⟨_, _, _, lines, words, List.Perm.refl _, written, rfl⟩

theorem length_le_of_read {text : List Char} {image : Image}
    (read : Image.read text = .ok image) : image.words.length ≤ 2 ^ maxAddressBits := by
  have empty : Draft.Bounded {} := Nat.zero_le _
  have outcome : Outcome (fun _ => True) (fun image => image.words.length ≤ 2 ^ maxAddressBits)
      (Image.read text) := Outcome.map (empty.readLines 1 (lines text))
  rw [read] at outcome
  exact outcome

/-- The images that texts denote are those of at most as many words as there are addresses, so that
their words fit every memory with all of these. Whatever blocks the words of such an image are cut
into, in whatever order they and the registers stand and however the numbers are written, the text
is read as that image. -/
theorem texts_denote :
    (∀ image, (∃ text, Image.read text = .ok image) ↔ image.words.length ≤ 256) ∧
    (∀ image text, image.words.length ≤ 256 → image.WrittenAs text →
      Image.read text = .ok image) ∧
    ∀ text image, Image.read text = .ok image → ∀ g : Geometry, g.addressBits = 8 →
      image.words.length ≤ g.capacity ∧
        ∀ address capacity, image.checkFits g ≠ .error (.addressOutOfRange address capacity) := by
  refine ⟨fun image => ⟨?_, ?_⟩, ?_, ?_⟩
  · rintro ⟨text, read⟩
    exact length_le_of_read read
  · intro small
    obtain ⟨text, written⟩ := image.exists_writtenAs
    exact ⟨text, written.read small⟩
  · exact fun image text small written => written.read small
  · intro text image read g wide
    have fits : image.words.length ≤ g.capacity := by
      rw [g.capacity_eq, wide]
      exact length_le_of_read read
    refine ⟨fits, fun address capacity => ?_⟩
    rw [checkFits, if_neg (Nat.not_lt.mpr fits)]
    split <;> simp

/-- Three words in two blocks, of which the second stands first. -/
theorem texts_denote_blocks :
    let image : Image := ⟨3, 0xABC, [7, 0, 255]⟩
    let text := ".org 1\n00\n0XfF\n.ac 0x0aBc\n.org 0x0\n7\n.pc 003\n".toList
    image.WrittenAs text ∧ Image.read text = .ok image := by
  intro image text
  have high : Item.Written (.word 255) ['0', 'X', 'f', 'F'] := .word (.hexadecimal 0 (.inr rfl) rfl)
  have ac : Item.Written (.ac 0xABC) ".ac 0x0aBc".toList := .ac (.hexadecimal 1 (.inl rfl) rfl)
  have start : Item.Written (.origin 0) ".org 0x0".toList :=
    .origin (.hexadecimal 0 (.inl rfl) rfl)
  have lines : List.Forall₂ Item.Written
      [.origin 1, .word 0, .word 255, .ac 0xABC, .origin 0, .word 7, .pc 3] _ :=
    .cons (.origin (.decimal 0)) <| .cons (.word (.decimal 1)) <| .cons high <| .cons ac <|
    .cons start <| .cons (.word (.decimal 0)) <| .cons (.pc (.decimal 2)) .nil
  have written : image.WrittenAs text :=
    ⟨[[7], [0, 255]], [[.origin 1, .word 0, .word 255], [.ac 0xABC], [.origin 0, .word 7], [.pc 3]],
      _, rfl, by decide, lines, by decide⟩
  exact ⟨written, texts_denote.2.1 image text (by decide) written⟩

end Image

end CipherMachine
