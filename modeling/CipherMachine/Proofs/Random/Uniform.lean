import CipherMachine.Proofs.Random
import CipherMachine.Random.ChaCha
import Mathlib.Data.FinEnum
import Mathlib.Data.Set.Card
import Mathlib.Data.Set.Finite.List
import Mathlib.Order.Interval.Finset.Nat

set_option autoImplicit false

/-!
Random numbers are uniform.

The byte strings that a draw may be given are counted by the number that it makes of them. The bits
that are shifted out of the last byte are free and all others are determined, so every number of the
length asked for comes from as many strings as every other. A round of rejection sampling keeps the
numbers below its bound, which are at least half of them.
-/

namespace CipherMachine

def byteStrings (length : Nat) : Set (List UInt8) := {bytes | bytes.length = length}

/-- There are finitely many, so that their subsets can be counted. -/
theorem finite_byteStrings (length : Nat) : (byteStrings length).Finite :=
  List.finite_length_eq UInt8 length

/-- If every number below a bound is the image of as many elements, the counts add up. -/
theorem ncard_below {α : Type} {s : Set α} (finite : s.Finite) {f : α → Nat} {count bound : Nat}
    (fibers : ∀ v < bound, {a ∈ s | f a = v}.ncard = count) :
    {a ∈ s | f a < bound}.ncard = bound * count := by
  induction bound with
  | zero => simp
  | succ bound ih =>
      have parts : {a ∈ s | f a < bound + 1} = {a ∈ s | f a < bound} ∪ {a ∈ s | f a = bound} := by
        rw [← Set.sep_or]
        simp only [Nat.lt_succ_iff_lt_or_eq]
      have apart : Disjoint {a ∈ s | f a < bound} {a ∈ s | f a = bound} := by
        rw [Set.disjoint_left]
        rintro a ⟨_, below⟩ ⟨_, reached⟩
        exact Nat.ne_of_lt below reached
      rw [parts, Set.ncard_union_eq apart (finite.subset (Set.sep_subset _ _))
        (finite.subset (Set.sep_subset _ _)), ih fun v below => fibers v (Nat.lt_succ_of_lt below),
        fibers bound (Nat.lt_succ_self bound), Nat.succ_mul]

/-- A shift forgets the bits that it drops, and only these. -/
theorem ncard_shifted_byte {excess v : Nat} (small : excess < 8) (below : v < 2 ^ (8 - excess)) :
    {byte : UInt8 | byte.toNat / 2 ^ excess = v}.ncard = 2 ^ excess := by
  have positive := Nat.two_pow_pos excess
  have within : (v + 1) * 2 ^ excess ≤ 2 ^ 8 := by
    have split : 2 ^ 8 = 2 ^ (8 - excess) * 2 ^ excess := by
      rw [← Nat.pow_add, Nat.sub_add_cancel (Nat.le_of_lt small)]
    rw [split]
    exact Nat.mul_le_mul_right _ below
  have numbers : UInt8.toNat '' {byte : UInt8 | byte.toNat / 2 ^ excess = v} =
      Finset.Ico (v * 2 ^ excess) ((v + 1) * 2 ^ excess) := by
    ext n
    rw [Finset.coe_Ico, Set.mem_Ico]
    constructor
    · rintro ⟨byte, rfl, rfl⟩
      exact ⟨Nat.div_mul_le_self _ _, (Nat.div_lt_iff_lt_mul positive).mp (Nat.lt_succ_self _)⟩
    · rintro ⟨low, high⟩
      have byte : (UInt8.ofNat n).toNat = n :=
        UInt8.toNat_ofNat_of_lt' (Nat.lt_of_lt_of_le high within)
      refine ⟨UInt8.ofNat n, ?_, byte⟩
      rw [Set.mem_ofPred_eq, byte]
      exact Nat.div_eq_of_lt_le low high
  rw [← Set.ncard_image_of_injective _ (fun _ _ => UInt8.toNat_inj.mp), numbers,
    Set.ncard_coe_finset, Nat.card_Ico, ← Nat.sub_mul, Nat.add_sub_cancel_left, Nat.one_mul]

theorem byteStrings_one_value {excess : Nat} (small : excess < 8) (v : Nat) :
    {bytes ∈ byteStrings 1 | byteValue (trimLast excess bytes) = v} =
      (fun last => [last]) '' {last : UInt8 | last.toNat / 2 ^ excess = v} := by
  ext bytes
  constructor
  · rintro ⟨length, value⟩
    obtain ⟨last, rfl⟩ := List.length_eq_one_iff.mp length
    rw [byteValue_trimLast_singleton small] at value
    exact ⟨last, value, rfl⟩
  · rintro ⟨last, value, rfl⟩
    exact ⟨rfl, (byteValue_trimLast_singleton small last).trans value⟩

/-- The first of several bytes is the lowest digit, and the others make up what lies above it. -/
theorem byteStrings_succ_value (excess length v : Nat) :
    {bytes ∈ byteStrings (length + 2) | byteValue (trimLast excess bytes) = v} =
      (UInt8.ofNat v :: ·) ''
        {bytes ∈ byteStrings (length + 1) | byteValue (trimLast excess bytes) = v / 0x100} := by
  ext bytes
  constructor
  · rintro ⟨measured, value⟩
    obtain ⟨byte, rest, rfl⟩ := List.exists_cons_of_length_eq_add_one measured
    have rest_length : rest.length = length + 1 := Nat.succ.inj measured
    rw [byteValue_trimLast_cons excess byte (List.ne_nil_of_length_eq_add_one rest_length)] at value
    have bound := byte.toNat_lt
    have low : UInt8.ofNat v = byte := by
      apply UInt8.toNat_inj.mp
      rw [UInt8.toNat_ofNat']
      omega
    refine ⟨rest, ⟨rest_length, by omega⟩, ?_⟩
    rw [low]
  · rintro ⟨rest, ⟨measured, value⟩, rfl⟩
    refine ⟨congrArg Nat.succ measured, ?_⟩
    rw [byteValue_trimLast_cons excess _ (List.ne_nil_of_length_eq_add_one measured), value,
      UInt8.toNat_ofNat']
    exact Nat.mod_add_div v 0x100

/-- A number fixes all bytes but the bits that the last one loses. -/
theorem ncard_byteValue_trimLast {excess : Nat} (small : excess < 8) (length : Nat) {v : Nat}
    (below : v < 2 ^ (8 * (length + 1) - excess)) :
    {bytes ∈ byteStrings (length + 1) | byteValue (trimLast excess bytes) = v}.ncard =
      2 ^ excess := by
  induction length generalizing v with
  | zero =>
      rw [byteStrings_one_value small, Set.ncard_image_of_injective _ List.singleton_injective]
      exact ncard_shifted_byte small below
  | succ length ih =>
      have upper : v / 0x100 < 2 ^ (8 * (length + 1) - excess) := by
        have width : 8 * (length + 2) - excess = 8 * (length + 1) - excess + 8 := by omega
        rw [width, Nat.pow_add] at below
        exact (Nat.div_lt_iff_lt_mul (by decide)).mpr below
      rw [byteStrings_succ_value, Set.ncard_image_of_injective _ List.cons_injective, ih upper]

/-- Every number of the given length is read from as many byte strings as every other. -/
theorem ncard_bitsOfBytes (bits v : Nat) :
    {bytes ∈ byteStrings (bytesFor bits) | bitsOfBytes bits bytes = v}.ncard =
      if v < 2 ^ bits then 2 ^ (8 * bytesFor bits - bits) else 0 := by
  by_cases below : v < 2 ^ bits
  · rw [if_pos below]
    rcases Nat.eq_zero_or_pos bits with rfl | positive
    · have empty : {bytes ∈ byteStrings (bytesFor 0) | bitsOfBytes 0 bytes = v} = {[]} := by
        obtain rfl : v = 0 := Nat.lt_one_iff.mp below
        rw [Set.eq_singleton_iff_unique_mem]
        exact ⟨⟨rfl, rfl⟩, fun bytes holds => List.eq_nil_of_length_eq_zero holds.1⟩
      rw [empty, Set.ncard_singleton]
      rfl
    · obtain ⟨length, bytes⟩ : ∃ length, bytesFor bits = length + 1 :=
        ⟨bytesFor bits - 1, by unfold bytesFor; omega⟩
      have small : 8 * bytesFor bits - bits < 8 := by
        unfold bytesFor
        omega
      have width : 8 * (length + 1) - (8 * bytesFor bits - bits) = bits := by
        rw [← bytes]
        unfold bytesFor
        omega
      have count := ncard_byteValue_trimLast small length (width.symm ▸ below)
      rw [← bytes] at count
      exact count
  · rw [if_neg below, Set.ncard_eq_zero ((finite_byteStrings _).subset (Set.sep_subset _ _)),
      Set.eq_empty_iff_forall_notMem]
    rintro bytes ⟨measured, rfl⟩
    exact below (bitsOfBytes_lt measured)

namespace Source

/-- The source that reads its bytes off a tape, with zeros beyond the end. -/
def tape : Source (List UInt8) where
  bytes n written := (written.takeD n 0, written.drop n)
  length_bytes n written := written.takeD_length n 0

variable {R : Type}

theorem bytes_tape {n : Nat} {written : List UInt8} (measured : written ∈ byteStrings n) :
    tape.bytes n written = (written, []) := by
  have length : written.length = n := measured
  have exact_take : written.takeD n 0 = written := by
    rw [List.takeD_eq_take _ (Nat.le_of_eq length.symm), ← length, List.take_length]
  have nothing_left : written.drop n = [] := List.drop_eq_nil_of_le (Nat.le_of_eq length)
  exact Prod.ext exact_take nothing_left

theorem bits_tape {bits : Nat} {written : List UInt8}
    (measured : written ∈ byteStrings (bytesFor bits)) :
    tape.bits bits written = (bitsOfBytes bits written, []) := by
  rw [Source.bits, bytes_tape measured]

theorem round_tape {bound : Nat} {written : List UInt8}
    (measured : written ∈ byteStrings (bytesFor (bitLength bound))) :
    (tape.round bound written).1 =
      if bitsOfBytes (bitLength bound) written < bound then
        some (bitsOfBytes (bitLength bound) written)
      else
        none := by
  rw [Source.round, bits_tape measured]

/-- Any source draws what the tape with the bytes that it delivers does. -/
theorem bits_eq_tape (src : Source R) (bits : Nat) (r : R) :
    (src.bits bits r).1 = (tape.bits bits (src.bytes (bytesFor bits) r).1).1 := by
  rw [bits_tape (src.length_bytes _ _)]
  rfl

theorem round_eq_tape (src : Source R) (bound : Nat) (r : R) :
    (src.round bound r).1 =
      (tape.round bound (src.bytes (bytesFor (bitLength bound)) r).1).1 := by
  rw [round_tape (src.length_bytes _ _)]
  rfl

theorem round_tape_eq_some_iff {bound v : Nat} {written : List UInt8}
    (measured : written ∈ byteStrings (bytesFor (bitLength bound))) :
    (tape.round bound written).1 = some v ↔
      v < bound ∧ bitsOfBytes (bitLength bound) written = v := by
  rw [round_tape measured, Option.ite_none_right_eq_some, Option.some.injEq]
  constructor
  · intro ⟨below, same⟩
    exact ⟨same ▸ below, same⟩
  · intro ⟨below, same⟩
    exact ⟨same ▸ below, same⟩

/-- Every number below the bound is accepted from as many tapes as every other. -/
theorem ncard_round_tape (bound v : Nat) :
    {written ∈ byteStrings (bytesFor (bitLength bound)) |
        (tape.round bound written).1 = some v}.ncard =
      if v < bound then 2 ^ (8 * bytesFor (bitLength bound) - bitLength bound) else 0 := by
  rw [Set.sep_ext_iff.mpr fun written measured => round_tape_eq_some_iff measured]
  by_cases below : v < bound
  · have fits := Nat.lt_trans below (bitLength_bounds (Nat.one_le_of_lt below)).1
    have count := ncard_bitsOfBytes (bitLength bound) v
    rw [if_pos fits] at count
    simpa only [below, true_and, if_true] using count
  · simp [below]

/-- At least half of all tapes give a number below the bound. -/
theorem half_round_tape {bound : Nat} (positive : 1 ≤ bound) :
    (byteStrings (bytesFor (bitLength bound))).ncard ≤
      2 * {written ∈ byteStrings (bytesFor (bitLength bound)) |
        (tape.round bound written).1 ≠ none}.ncard := by
  obtain ⟨fits, half⟩ := bitLength_bounds positive
  have counts : ∀ v < 2 ^ bitLength bound,
      {written ∈ byteStrings (bytesFor (bitLength bound)) |
        bitsOfBytes (bitLength bound) written = v}.ncard =
          2 ^ (8 * bytesFor (bitLength bound) - bitLength bound) :=
    fun v below => (ncard_bitsOfBytes _ v).trans (if_pos below)
  have every : {written ∈ byteStrings (bytesFor (bitLength bound)) |
      bitsOfBytes (bitLength bound) written < 2 ^ bitLength bound} = byteStrings _ :=
    Set.sep_eq_self_iff_mem_true.mpr fun _ measured => bitsOfBytes_lt measured
  have all := ncard_below (finite_byteStrings _) counts
  rw [every] at all
  have accepted := ncard_below (finite_byteStrings _) fun v below =>
    counts v (Nat.lt_trans below fits)
  have same : ∀ written ∈ byteStrings (bytesFor (bitLength bound)),
      (tape.round bound written).1 ≠ none ↔ bitsOfBytes (bitLength bound) written < bound := by
    intro written measured
    rw [round_tape measured]
    split <;> simp_all
  rw [Set.sep_ext_iff.mpr same, accepted, all, ← Nat.mul_assoc]
  exact Nat.mul_le_mul_right _ half

end Source

/-- Random numbers are uniform. Over all tapes of the length that is read, every number of the bits
asked for is drawn equally often and no other number is; and a round of rejection sampling accepts
every number below its bound equally often, accepts no other, and accepts at least half of the
tapes. What any source draws is what the tapes with its bytes give, round after round: a draw below
a bound gives the number of the first round that is accepted. -/
theorem Source.draws_uniform {R : Type} (src : Source R) :
    (∀ bits v, {written ∈ byteStrings (bytesFor bits) | (tape.bits bits written).1 = v}.ncard =
      if v < 2 ^ bits then 2 ^ (8 * bytesFor bits - bits) else 0) ∧
    (∀ bound, 1 ≤ bound →
      let tapes := byteStrings (bytesFor (bitLength bound))
      (∃ count, ∀ v, {written ∈ tapes | (tape.round bound written).1 = some v}.ncard =
        if v < bound then count else 0) ∧
      tapes.ncard ≤ 2 * {written ∈ tapes | (tape.round bound written).1 ≠ none}.ncard) ∧
    (∀ bits r, (src.bits bits r).1 = (tape.bits bits (src.bytes (bytesFor bits) r).1).1) ∧
    (∀ bound r, src.below bound r =
      let (written, next) := src.bytes (bytesFor (bitLength bound)) r
      match (tape.round bound written).1 with
      | some v => some (v, next)
      | none => src.below bound next) ∧
    ∀ bound r v next, src.below bound r = some (v, next) ↔
      ∃ n, src.Accepts bound n r v ∧ next = src.after bound (n + 1) r := by
  refine ⟨?_, ?_, src.bits_eq_tape, ?_, fun _ _ _ _ => below_eq_some_iff⟩
  · intro bits v
    rw [← ncard_bitsOfBytes, Set.sep_ext_iff.mpr fun written measured => by rw [bits_tape measured]]
  · intro bound positive tapes
    exact ⟨⟨_, ncard_round_tape bound⟩, half_round_tape positive⟩
  · intro bound r
    rw [below_eq, round_eq_tape]
    rfl

/-- Numbers of eleven bits, of which two bytes lose five, and numbers below five, which have three
bits. -/
theorem Source.draws_uniform_five :
    {written ∈ byteStrings 2 | (tape.bits 11 written).1 = 1000}.ncard = 32 ∧
      (∃ count, ∀ v, {written ∈ byteStrings 1 | (tape.round 5 written).1 = some v}.ncard =
        if v < 5 then count else 0) ∧
      (byteStrings 1).ncard ≤
        2 * {written ∈ byteStrings 1 | (tape.round 5 written).1 ≠ none}.ncard := by
  obtain ⟨bits, below, _⟩ := draws_uniform ChaCha.source
  have length : bytesFor (bitLength 5) = 1 := by decide
  have rounds := below 5 (by decide)
  rw [length] at rounds
  exact ⟨bits 11 1000, rounds⟩

end CipherMachine
