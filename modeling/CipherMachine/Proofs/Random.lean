import CipherMachine.Random.Source
import Mathlib.Algebra.Group.Nat.Defs

set_option autoImplicit false

/-!
Random numbers, for every source of bytes: their ranges, and when a draw below a bound ends.

A draw ends with the first round that is accepted. It ends if the source keeps delivering strings
whose last byte is small, since a number without its topmost bit is below every bound of its length.
-/

namespace CipherMachine

/-- Lengths that are kept in 32 bits and wrap around leave the same bits over, and of all such
lengths only the last seven wrap. -/
theorem excess_fits (bits : Nat) :
    (UInt32.ofNat (bytesFor bits) * 8 - UInt32.ofNat bits).toNat = 8 * bytesFor bits - bits ∧
      (8 * bytesFor bits < UInt32.size ↔ bits ≤ UInt32.size - 8) := by
  unfold bytesFor
  constructor
  · rw [UInt32.toNat_sub, UInt32.toNat_mul, UInt32.toNat_ofNat', UInt32.toNat_ofNat']
    change (2 ^ 32 - bits % 2 ^ 32 + (bits + 7) / 8 % 2 ^ 32 * 8 % 2 ^ 32) % 2 ^ 32 = _
    omega
  · unfold UInt32.size
    omega

/-- Bits are shifted out of the last byte. -/
theorem byteValue_trimLast_singleton {excess : Nat} (small : excess < 8) (last : UInt8) :
    byteValue (trimLast excess [last]) = last.toNat / 2 ^ excess := by
  have shift : (UInt8.ofNat excess).toNat % 8 = excess := by
    rw [UInt8.toNat_ofNat']
    omega
  rw [trimLast, byteValue_cons, byteValue_nil, UInt8.toNat_shiftRight, shift,
    Nat.shiftRight_eq_div_pow, Nat.mul_zero, Nat.add_zero]

/-- No bits are shifted out of a byte that others follow. -/
theorem byteValue_trimLast_cons (excess : Nat) (byte : UInt8) {rest : List UInt8}
    (more : rest ≠ []) :
    byteValue (trimLast excess (byte :: rest)) =
      byte.toNat + 0x100 * byteValue (trimLast excess rest) := by
  rw [trimLast, byteValue_cons]
  exact more

/-- A byte string whose last byte has its topmost bits clear stands for a number that does, too. -/
theorem byteValue_trimLast_lt {bytes : List UInt8} {excess spare : Nat} (small : excess < 8)
    (room : excess + spare ≤ 8) (nonempty : bytes ≠ [])
    (top : ∀ last ∈ bytes.getLast?, last.toNat < 2 ^ (8 - spare)) :
    byteValue (trimLast excess bytes) < 2 ^ (8 * bytes.length - excess - spare) := by
  fun_induction trimLast excess bytes with
  | case1 => exact absurd rfl nonempty
  | case2 last =>
      have value := byteValue_trimLast_singleton small last
      have shifted : 8 * 1 - excess - spare + excess = 8 - spare := by omega
      rw [trimLast] at value
      rw [value, List.length_singleton, Nat.div_lt_iff_lt_mul (Nat.two_pow_pos _), ← Nat.pow_add,
        shifted]
      exact top last rfl
  | case3 byte rest more ih =>
      rw [List.getLast?_cons_of_ne_nil more] at top
      have tail := ih more top
      have bound := byte.toNat_lt
      have position : 0 < rest.length := List.length_pos_iff.mpr more
      have width : 8 * (rest.length + 1) - excess - spare =
          8 * rest.length - excess - spare + 8 := by
        omega
      rw [byteValue_cons, List.length_cons, width, Nat.pow_add]
      omega

/-- A number whose last byte has `spare` topmost bits clear is as many bits shorter. -/
theorem bitsOfBytes_lt_of_spare {bits spare : Nat} {bytes : List UInt8}
    (length : bytes.length = bytesFor bits) (room : 8 * bytesFor bits - bits + spare ≤ 8)
    (nonempty : bytes ≠ []) (top : ∀ last ∈ bytes.getLast?, last.toNat < 2 ^ (8 - spare)) :
    bitsOfBytes bits bytes < 2 ^ (bits - spare) := by
  have excess : 8 * bytesFor bits - bits < 8 := by
    unfold bytesFor
    omega
  have width : 8 * bytes.length - (8 * bytesFor bits - bits) - spare = bits - spare := by
    rw [length]
    unfold bytesFor
    omega
  have bound := byteValue_trimLast_lt excess room nonempty top
  rw [width] at bound
  exact bound

theorem bitsOfBytes_lt {bits : Nat} {bytes : List UInt8} (length : bytes.length = bytesFor bits) :
    bitsOfBytes bits bytes < 2 ^ bits := by
  by_cases empty : bytes = []
  · subst empty
    exact Nat.two_pow_pos bits
  · have room : 8 * bytesFor bits - bits + 0 ≤ 8 := by
      unfold bytesFor
      omega
    exact bitsOfBytes_lt_of_spare length room empty fun last _ => last.toNat_lt

/-- A bound has just as many bits as the numbers below it need. -/
theorem bitLength_bounds {bound : Nat} (positive : 1 ≤ bound) :
    bound < 2 ^ bitLength bound ∧ 2 ^ bitLength bound ≤ 2 * bound := by
  have nonzero : bound ≠ 0 := Nat.one_le_iff_ne_zero.mp positive
  rw [bitLength, if_neg nonzero]
  refine ⟨Nat.lt_log2_self, ?_⟩
  rw [Nat.pow_succ']
  exact Nat.mul_le_mul_left 2 (Nat.log2_self_le nonzero)

namespace Source

variable {R : Type}

theorem bits_lt (src : Source R) (bits : Nat) (r : R) : (src.bits bits r).1 < 2 ^ bits :=
  bitsOfBytes_lt (src.length_bytes _ _)

/-- The state after a number of requests for as many bytes each. -/
def skip (src : Source R) (length : Nat) : Nat → R → R
  | 0, r => r
  | n + 1, r => src.skip length n (src.bytes length r).2

/-- The state after a number of rounds of a draw below the bound. -/
def after (src : Source R) (bound : Nat) : Nat → R → R :=
  src.skip (bytesFor (bitLength bound))

theorem round_snd (src : Source R) (bound : Nat) (r : R) :
    (src.round bound r).2 = src.after bound 1 r := rfl

/-- The draw ends with round number `n`, the first that is accepted. -/
structure Accepts (src : Source R) (bound n : Nat) (r : R) (v : Nat) : Prop where
  accepted : (src.round bound (src.after bound n r)).1 = some v
  refused : ∀ i < n, (src.round bound (src.after bound i r)).1 = none

/-- A round that is refused is made again, from the state that it leaves. -/
theorem below_eq (src : Source R) (bound : Nat) (r : R) :
    src.below bound r =
      match (src.round bound r).1 with
      | some v => some (v, src.after bound 1 r)
      | none => src.below bound (src.after bound 1 r) := by
  rw [below, ← round_snd]
  rcases src.round bound r with ⟨_ | v, next⟩ <;> rfl

/-- A round that is refused before the others only makes the draw longer. -/
theorem accepts_succ_iff {src : Source R} {bound n v : Nat} {r : R} :
    src.Accepts bound (n + 1) r v ↔
      (src.round bound r).1 = none ∧ src.Accepts bound n (src.after bound 1 r) v := by
  constructor
  · intro ⟨accepted, refused⟩
    exact ⟨refused 0 (Nat.zero_lt_succ n), accepted,
      fun i earlier => refused (i + 1) (Nat.succ_lt_succ earlier)⟩
  · intro ⟨first, accepted, refused⟩
    refine ⟨accepted, fun i earlier => ?_⟩
    cases i with
    | zero => exact first
    | succ i => exact refused i (Nat.lt_of_succ_lt_succ earlier)

/-- A draw gives what the first accepted round gives, and leaves the source behind that round. -/
theorem below_eq_some_iff {src : Source R} {bound v : Nat} {r next : R} :
    src.below bound r = some (v, next) ↔
      ∃ n, src.Accepts bound n r v ∧ next = src.after bound (n + 1) r := by
  constructor
  · -- Only what a finite number of rounds gives is an answer.
    intro drawn
    refine below.partial_correctness src bound
      (fun r answer => ∃ n, src.Accepts bound n r answer.1 ∧ answer.2 = src.after bound (n + 1) r)
      ?_ r (v, next) drawn
    intro draw later r answer drawn
    rcases made : src.round bound r with ⟨_ | w, rest⟩
    · rw [made] at drawn
      have step : rest = src.after bound 1 r := (congrArg Prod.snd made).symm
      subst step
      have ⟨n, accepts, left⟩ := later _ answer drawn
      exact ⟨n + 1, accepts_succ_iff.mpr ⟨congrArg Prod.fst made, accepts⟩, left⟩
    · rw [made] at drawn
      have given : (w, rest) = answer := Option.some.inj drawn
      subst given
      exact ⟨0, ⟨congrArg Prod.fst made, nofun⟩, (congrArg Prod.snd made).symm⟩
  · intro ⟨n, accepts, left⟩
    subst left
    induction n generalizing r with
    | zero =>
        have accepted : (src.round bound r).1 = some v := accepts.accepted
        rw [below_eq, accepted]
    | succ n ih =>
        have ⟨refused, later⟩ := accepts_succ_iff.mp accepts
        rw [below_eq, refused]
        exact ih later

theorem below_lt (src : Source R) {bound n : Nat} {r next : R}
    (drawn : src.below bound r = some (n, next)) : n < bound := by
  have ⟨k, ⟨accepted, _⟩, _⟩ := below_eq_some_iff.mp drawn
  rw [round] at accepted
  dsimp only at accepted
  split at accepted
  · rename_i fits
    rwa [← Option.some.inj accepted]
  · cases accepted

end Source

end CipherMachine
