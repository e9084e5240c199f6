import CipherMachine.Proofs.IntegerCorrectness
import CipherMachine.Proofs.PlainBit
import CipherMachine.Random.ChaCha

set_option autoImplicit false

/-!
Words carry numbers through encryption and back.

An encrypted word decrypts to the lowest digits of the number it was made of. A slice of it decrypts
to a quotient modulo a power of two, and low bits that are replaced are added to what is left when
those digits are cleared.
-/

namespace CipherMachine.Gates

section

variable {C S : Type} (G : Gates C S)

/-- What a word of the given width gives back of a number: the number modulo the word's capacity,
its digits from the least significant one up, and the numbers that stand in its parts. A word of low
bits replaces the lowest digits of the number and none of the other bits. -/
structure Carries (word : Word C) (width n : Nat) : Prop where
  value : G.decryptWord word = .ok (n % 2 ^ width)
  digits : G.decryptBits word = (List.range width).map n.testBit
  slice : ∀ first last, first ≤ last → last ≤ width → ∃ part, word.slice first last = .ok part ∧
    G.decryptWord part = .ok (n / 2 ^ first % 2 ^ (last - first))
  withLowBits : ∀ low : Word C, low.width ≤ width → ∃ next, word.withLowBits low = .ok next ∧
    G.decryptWord next =
      .ok ((G.value low + n / 2 ^ low.width * 2 ^ low.width) % 2 ^ width) ∧
    next.width = width ∧ ∀ i, low.width ≤ i → next.bits[i]? = word.bits[i]?

variable {G} {word : Word C} {width n : Nat}

theorem width_of_digits (digits : G.decryptBits word = binaryDigits width n) :
    word.width = width := by
  have length := congrArg List.length digits
  rwa [decryptBits, List.length_map, length_binaryDigits] at length

theorem decryptWord_of_digits (digits : G.decryptBits word = binaryDigits width n)
    (narrow : width ≤ 64) : G.decryptWord word = .ok (n % 2 ^ width) := by
  rw [decryptWord, if_pos (width_of_digits digits ▸ narrow), Gates.value, digits,
    binaryValue_binaryDigits]

theorem slice_of_digits (digits : G.decryptBits word = binaryDigits width n) {first last : Nat}
    (ordered : first ≤ last) (within : last ≤ width) :
    ∃ part, word.slice first last = .ok part ∧
      G.decryptBits part = binaryDigits (last - first) (n / 2 ^ first) := by
  refine ⟨⟨(word.bits.take last).drop first⟩, ?_, ?_⟩
  · rw [Word.slice, if_pos ⟨ordered, (width_of_digits digits).symm ▸ within⟩]
  · rw [decryptBits, List.map_drop, List.map_take]
    change ((G.decryptBits word).take last).drop first = _
    rw [digits, take_binaryDigits n within, drop_binaryDigits]

theorem withLowBits_of_digits (digits : G.decryptBits word = binaryDigits width n) {low : Word C}
    (within : low.width ≤ width) :
    ∃ next, word.withLowBits low = .ok next ∧
      G.decryptBits next =
        binaryDigits width (G.value low + n / 2 ^ low.width * 2 ^ low.width) ∧
      ∀ i, low.width ≤ i → next.bits[i]? = word.bits[i]? := by
  refine ⟨⟨low.bits ++ word.bits.drop low.width⟩, ?_, ?_, fun i high => ?_⟩
  · rw [Word.withLowBits, if_pos ((width_of_digits digits).symm ▸ within)]
  · rw [decryptBits, List.map_append, List.map_drop]
    change G.decryptBits low ++ (G.decryptBits word).drop low.width = _
    have parts := binaryDigits_append low.width (width - low.width) (G.value low)
      (n / 2 ^ low.width)
    rw [Nat.add_sub_cancel' within, Nat.mod_eq_of_lt (G.value_lt low),
      G.binaryDigits_value rfl] at parts
    rw [digits, drop_binaryDigits, Nat.mul_comm, parts]
  · rw [List.getElem?_append_right high, List.getElem?_drop]
    exact congrArg (word.bits[·]?) (Nat.add_sub_cancel' high)

theorem carries_of_digits (digits : G.decryptBits word = binaryDigits width n)
    (narrow : width ≤ 64) : G.Carries word width n where
  value := decryptWord_of_digits digits narrow
  digits := digits
  slice first last ordered within := by
    obtain ⟨part, cut, part_digits⟩ := slice_of_digits digits ordered within
    exact ⟨part, cut, decryptWord_of_digits part_digits (by omega)⟩
  withLowBits low within := by
    obtain ⟨next, replaced, next_digits, kept⟩ := withLowBits_of_digits digits within
    exact ⟨next, replaced, decryptWord_of_digits next_digits narrow, width_of_digits next_digits,
      kept⟩

variable {reads : Bit C → Bool → Prop} {dry : S → Prop}

theorem Homomorphic.encryptWord_carries (hom : G.Homomorphic reads dry) (opens : G.Opens reads)
    (n : Nat) (narrow : width ≤ 64) :
    (G.encryptWord n width).Yields dry (G.Carries · width n) :=
  (hom.encryptWord n narrow).mono fun _ holds =>
    carries_of_digits (opens.decryptBits holds) narrow

end

/-- An encrypted word gives back the number it was made of, modulo its capacity, in whole and in its
parts: under plain bits always, and under integer keys unless no quotient can be drawn. -/
theorem words_round_trip (n : Nat) {width : Nat} (narrow : width ≤ 64) :
    (∀ {S : Type} (scheme : Scheme Bool S) (G : Gates Bool S), scheme.PlainBit →
      ofScheme scheme = .ok G → ∀ s, ∃ word t, (G.encryptWord n width).exec s = (.ok word, t) ∧
        G.Carries word width n) ∧
    ∀ {R : Type} (params : IntegerParams) (valid : params.Valid) (src : Source R) (r : R),
      let k := (IntegerKeys.generate params valid src r).1
      ofScheme (k.scheme src) = .ok (k.gates src) ∧
        ((k.gates src).encryptWord n width).Yields (fun t => src.below k.quotientBound t = none)
          ((k.gates src).Carries · width n) := by
  constructor
  · intro S scheme G plain accepted s
    obtain rfl := scheme_of_ofScheme accepted
    exact ((homomorphic plain.preserves).encryptWord_carries plain.opens n narrow).answer s
  · intro R params valid src r k
    have hom := (IntegerKeys.generate_sound params valid src r).homomorphic src
    exact ⟨(k.gates src).ofScheme_scheme, hom.encryptWord_carries (k.opens src) n narrow⟩

/-- Ten digits of a number that has eleven, under plain bits and under the smallest integer keys. -/
theorem words_round_trip_ten :
    let G : Gates Bool Unit := ⟨.plain { fresh := 3, budget := 6 }, by decide⟩
    let src := ChaCha.source
    let k := (IntegerKeys.generate ⟨1, 5, 6⟩ ⟨by decide, by decide, by decide⟩ src
      (ChaCha.ofSeed (List.replicate 32 7))).1
    (∃ word t, (G.encryptWord 0x5A9 10).exec ⟨(), {}⟩ = (.ok word, t) ∧ G.Carries word 10 0x5A9) ∧
      ((k.gates src).encryptWord 0x5A9 10).Yields (fun t => src.below k.quotientBound t = none)
        ((k.gates src).Carries · 10 0x5A9) := by
  intro G src k
  have round_trip := words_round_trip 0x5A9 (by decide : 10 ≤ 64)
  constructor
  · exact round_trip.1 G.scheme G (Scheme.plainBit_plain _) G.ofScheme_scheme ⟨(), {}⟩
  · exact (round_trip.2 _ _ src (ChaCha.ofSeed (List.replicate 32 7))).2

/-- The digits past a word's capacity are lost where low bits are replaced as well: of the nine ones
of 511 a word of eight bits has eight, and clearing four of them leaves 240. -/
theorem low_bits_bounded_by_capacity :
    let G : Gates Bool Unit := ⟨.plain { fresh := 3, budget := 6 }, by decide⟩
    let low : Word Bool := ⟨List.replicate 4 ⟨false, 3⟩⟩
    ∃ word next t, (G.encryptWord 511 8).exec ⟨(), {}⟩ = (.ok word, t) ∧
      word.withLowBits low = .ok next ∧ G.decryptWord next = .ok 240 ∧
      G.value low + 511 / 2 ^ low.width * 2 ^ low.width = 496 :=
  ⟨⟨List.replicate 8 ⟨true, 3⟩⟩, ⟨List.replicate 4 ⟨false, 3⟩ ++ List.replicate 4 ⟨true, 3⟩⟩, _,
    rfl, rfl, rfl, rfl⟩

end CipherMachine.Gates
