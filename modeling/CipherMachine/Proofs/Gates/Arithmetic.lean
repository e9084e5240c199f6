import CipherMachine.Proofs.Gates.Reduction
import CipherMachine.Proofs.Gates.Word

set_option autoImplicit false

/-!
Arithmetic circuits compute with numbers: addition with carry, increment, comparison with zero
and the bitwise operations, for words of every width.
-/

namespace CipherMachine

open GateM

private theorem fullAdder_value (x y c : Bool) :
    (x ^^ y ^^ c).toNat + 2 * ((x && y) ^^ ((x ^^ y) && c)).toNat =
      x.toNat + y.toNat + c.toNat := by
  cases x <;> cases y <;> cases c <;> rfl

theorem any_binaryDigits (width n : Nat) :
    (binaryDigits width n).any id = !decide (n % 2 ^ width = 0) := by
  have zero : binaryDigits width n = binaryDigits width 0 ↔ n % 2 ^ width = 0 := by
    rw [binaryDigits_inj, Nat.zero_mod]
  rw [Bool.eq_iff_iff, Bool.not_eq_true', decide_eq_false_iff_not, ← zero, List.any_eq_true]
  constructor
  · rintro ⟨x, member, set⟩ same
    rw [same, binaryDigits] at member
    obtain ⟨i, _, rfl⟩ := List.mem_map.mp member
    simp at set
  · intro differ
    by_contra none
    apply differ
    apply binaryDigits_congr
    intro i below
    rw [Nat.zero_testBit, ← Bool.not_eq_true]
    exact fun set => none ⟨_, List.mem_map.mpr ⟨i, List.mem_range.mpr below, rfl⟩, set⟩

namespace Gates

variable {C S : Type} {G : Gates C S} {reads : Bit C → Bool → Prop} {dry : S → Prop}

/-- The carry chain keeps the sum: digits and carry out together are the operands and the carry
in. -/
theorem ripple_yields (hom : G.Homomorphic reads dry) {as bs : List (Bit C)} {xs ys : List Bool}
    {carry : Bit C} {c : Bool} (ha : List.Forall₂ reads as xs) (hb : List.Forall₂ reads bs ys)
    (width : ys.length = xs.length) (hc : reads carry c) :
    (G.ripple (as.zip bs) carry).Yields dry fun answer => ∃ zs out,
      List.Forall₂ reads answer.1 zs ∧ reads answer.2 out ∧ zs.length = xs.length ∧
        binaryValue zs + 2 ^ xs.length * out.toNat =
          binaryValue xs + binaryValue ys + c.toNat := by
  induction ha generalizing bs ys carry c with
  | nil =>
      obtain rfl := List.eq_nil_of_length_eq_zero width
      obtain rfl := List.forall₂_nil_right_iff.mp hb
      exact .pure ⟨[], c, .nil, hc, rfl, by simp [binaryValue]⟩
  | @cons a x as xs hx _ ih =>
      obtain _ | @⟨b, y, bs, ys, hy, hb⟩ := hb
      · simp at width
      refine (hom.xor hx hy).bind fun half hh => ?_
      refine (hom.xor hh hc).bind fun digit hd => ?_
      refine (hom.and hx hy).bind fun generated hg => ?_
      refine (hom.and hh hc).bind fun propagated hp => ?_
      refine (hom.xor hg hp).bind fun next hn => ?_
      refine (ih hb (by simpa using width) hn).bind fun answer h => ?_
      obtain ⟨zs, out, outs, last, length, value⟩ := h
      refine .pure ⟨(x ^^ y ^^ c) :: zs, out, .cons hd outs, last, by simp [length], ?_⟩
      have adder := fullAdder_value x y c
      simp only [binaryValue, List.length_cons, Nat.pow_succ', Nat.mul_assoc]
      omega

/-- The sum modulo the capacity, and whether the sum of the held numbers reaches it. -/
theorem Homomorphic.add (hom : G.Homomorphic reads dry) {left right : Word C} {carry : Bit C}
    {width m n : Nat} {c : Bool} (hl : left.Holds reads width m) (hr : right.Holds reads width n)
    (hc : reads carry c) :
    (G.add left right carry).Yields dry fun answer =>
      answer.1.Holds reads width (m + n + c.toNat) ∧
        reads answer.2 (decide (2 ^ width ≤ m % 2 ^ width + n % 2 ^ width + c.toNat)) := by
  unfold Gates.add
  apply Yields.guarded
  · rw [hl.width_eq, hr.width_eq]
    exact not_not_intro rfl
  refine (ripple_yields hom hl hr (by simp) hc).bind fun answer h => ?_
  obtain ⟨zs, out, digits, last, length, value⟩ := h
  rw [binaryValue_binaryDigits, binaryValue_binaryDigits, length_binaryDigits] at value
  rw [length_binaryDigits] at length
  have bound := binaryValue_lt zs
  rw [length] at bound
  refine .pure ⟨?_, ?_⟩
  · have sum : binaryValue zs = (m + n + c.toNat) % 2 ^ width := by
      rw [Nat.add_mod (m + n), Nat.add_mod m, Nat.mod_add_mod, Nat.add_mod_mod, ← value,
        Nat.add_mul_mod_self_left, Nat.mod_eq_of_lt bound]
    rw [Word.Holds, ← eq_binaryDigits length sum]
    exact digits
  · rw [← value]
    cases out with
    | false =>
        have below : ¬ 2 ^ width ≤ binaryValue zs + 2 ^ width * false.toNat := by simpa using bound
        rwa [decide_eq_false below]
    | true =>
        have above : 2 ^ width ≤ binaryValue zs + 2 ^ width * true.toNat := by simp
        rwa [decide_eq_true above]

theorem propagate_yields (hom : G.Homomorphic reads dry) {bits : List (Bit C)} {xs : List Bool}
    {carry : Bit C} {c : Bool} (read : List.Forall₂ reads bits xs) (hc : reads carry c) :
    (G.propagate carry bits).Yields dry fun out => ∃ zs, List.Forall₂ reads out zs ∧
      zs.length = xs.length ∧ binaryValue zs = (binaryValue xs + c.toNat) % 2 ^ xs.length := by
  induction read generalizing carry c with
  | nil => exact .pure ⟨[], .nil, rfl, by simp [binaryValue, Nat.mod_one]⟩
  | @cons bit x bits xs hx tail ih =>
      have low : x.toNat ≤ 1 ∧ c.toNat ≤ 1 := ⟨Bool.toNat_le x, Bool.toNat_le c⟩
      cases tail with
      | nil =>
          refine (hom.xor hx hc).bind fun digit hd => .pure ⟨[x ^^ c], .cons hd .nil, rfl, ?_⟩
          cases x <;> cases c <;> rfl
      | @cons second y rest ys hy tail =>
          refine (hom.xor hx hc).bind fun digit hd => ?_
          refine (hom.and hx hc).bind fun next hn => ?_
          refine (ih hn).bind fun digits h => ?_
          obtain ⟨zs, read, length, value⟩ := h
          refine .pure ⟨(x ^^ c) :: zs, .cons hd read, by rw [List.length_cons, length]; rfl, ?_⟩
          have half : (x ^^ c).toNat + 2 * (x && c).toNat = x.toNat + c.toNat := by
            cases x <;> cases c <;> rfl
          have sum : binaryValue (x :: y :: ys) + c.toNat =
              (x ^^ c).toNat + 2 * (binaryValue (y :: ys) + (x && c).toNat) := by
            rw [binaryValue]
            omega
          have digit_mod : (x ^^ c).toNat % 2 = (x ^^ c).toNat := by
            cases x <;> cases c <;> rfl
          rw [sum, List.length_cons, Nat.pow_succ', Nat.mod_mul, binaryValue, value]
          congr 1
          · omega
          · congr 2
            omega

theorem Homomorphic.increment (hom : G.Homomorphic reads dry) {word : Word C} {width n : Nat}
    (holds : word.Holds reads width n) :
    (G.increment word).Yields dry (·.Holds reads width (n + 1)) := by
  obtain ⟨bits⟩ := word
  cases width with
  | zero =>
      obtain rfl := List.forall₂_nil_right_iff.mp holds
      exact .pure .nil
  | succ width =>
      rw [Word.Holds, binaryDigits_succ] at holds
      obtain _ | @⟨first, _, rest, _, head, tail⟩ := holds
      refine (hom.not head).bind fun low hlow => ?_
      refine (propagate_yields hom tail head).bind fun digits h => ?_
      obtain ⟨zs, read, length, value⟩ := h
      have carried : n / 2 + (n.testBit 0).toNat = (n + 1) / 2 := by
        rw [Nat.toNat_testBit, Nat.pow_zero, Nat.div_one]
        omega
      rw [binaryValue_binaryDigits, length_binaryDigits, Nat.mod_add_mod, carried] at value
      rw [length_binaryDigits] at length
      have flipped : (!n.testBit 0) = (n + 1).testBit 0 := by
        rw [Nat.testBit_zero, Nat.testBit_zero, ← decide_not]
        exact decide_eq_decide.mpr (by omega)
      have digits_eq : (!n.testBit 0) :: zs = binaryDigits (width + 1) (n + 1) := by
        rw [binaryDigits_succ, eq_binaryDigits length value, flipped]
      refine .pure ?_
      rw [Word.Holds, ← digits_eq]
      exact .cons hlow read

theorem Homomorphic.isZero (hom : G.Homomorphic reads dry) {word : Word C} {width n : Nat}
    (holds : word.Holds reads width n) (positive : 0 < width) :
    (G.isZero word).Yields dry (reads · (decide (n % 2 ^ width = 0))) := by
  have nonempty : binaryDigits width n ≠ [] := by
    apply List.ne_nil_of_length_pos
    rw [length_binaryDigits]
    exact positive
  refine (hom.orAll holds nonempty).bind fun any ha => ?_
  refine (hom.not ha).mono fun b answer => ?_
  rwa [any_binaryDigits, Bool.not_not] at answer

/-- Bitwise negation takes a number to the distance from the highest one. -/
theorem Homomorphic.notWord (hom : G.Homomorphic reads dry) {word : Word C} {width n : Nat}
    (holds : word.Holds reads width n) :
    (G.notWord word).Yields dry (·.Holds reads width (2 ^ width - (n % 2 ^ width + 1))) := by
  refine (Yields.mapM holds (T := fun b x => reads b !x) fun a x ha => hom.not ha).bind
    fun bits answer => .pure ?_
  have below : n % 2 ^ width < 2 ^ width := Nat.mod_lt n (Nat.two_pow_pos width)
  have digits : binaryDigits width (2 ^ width - (n % 2 ^ width + 1)) =
      (binaryDigits width n).map (!·) := by
    rw [← binaryDigits_mod width n, binaryDigits, binaryDigits, List.map_map]
    apply List.map_congr_left
    intro i member
    rw [Nat.testBit_two_pow_sub_succ below, decide_eq_true (List.mem_range.mp member),
      Bool.true_and]
    rfl
  rw [Word.Holds, digits, List.forall₂_map_right_iff]
  exact answer

theorem zipWord_yields {combine : Bit C → Bit C → GateM S (Bit C)} {op : Bool → Bool → Bool}
    (law : ∀ {a b x y}, reads a x → reads b y → (combine a b).Yields dry (reads · (op x y)))
    {left right : Word C} {width m n k : Nat} (hl : left.Holds reads width m)
    (hr : right.Holds reads width n)
    (digits : ∀ i, k.testBit i = op (m.testBit i) (n.testBit i)) :
    (zipWord combine left right).Yields dry (·.Holds reads width k) := by
  unfold zipWord
  apply Yields.guarded
  · rw [hl.width_eq, hr.width_eq]
    exact not_not_intro rfl
  · exact (bitwise_yields law hl hr digits).bind fun bits answer => .pure answer

theorem Homomorphic.andWord (hom : G.Homomorphic reads dry) {left right : Word C}
    {width m n : Nat} (hl : left.Holds reads width m) (hr : right.Holds reads width n) :
    (G.andWord left right).Yields dry (·.Holds reads width (m &&& n)) :=
  zipWord_yields hom.and hl hr (Nat.testBit_and m n)

theorem Homomorphic.xorWord (hom : G.Homomorphic reads dry) {left right : Word C}
    {width m n : Nat} (hl : left.Holds reads width m) (hr : right.Holds reads width n) :
    (G.xorWord left right).Yields dry (·.Holds reads width (m ^^^ n)) :=
  zipWord_yields hom.xor hl hr (Nat.testBit_xor m n)

theorem Homomorphic.orWord (hom : G.Homomorphic reads dry) {left right : Word C}
    {width m n : Nat} (hl : left.Holds reads width m) (hr : right.Holds reads width n) :
    (G.orWord left right).Yields dry (·.Holds reads width (m ||| n)) :=
  zipWord_yields hom.or hl hr (Nat.testBit_or m n)

end Gates

end CipherMachine
