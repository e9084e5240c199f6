import CipherMachine.Proofs.Cost.Words
import CipherMachine.Proofs.PlainBit

set_option autoImplicit false

/-!
Addition, subtraction and the increment are exact.

A sum together with its carry out is the sum of the integers. Adding a complement and one gives the
difference modulo the word's capacity, and the carry out of that compares the operands. The
increment is the sum with zero and a carry, at a fraction of its gates.
-/

namespace CipherMachine

open GateM

/-- A total below two capacities is what a word keeps of it and the carry out. -/
theorem mod_add_carry {total capacity : Nat} (below : total < 2 * capacity) :
    total % capacity + capacity * (decide (capacity ≤ total)).toNat = total := by
  by_cases carries : capacity ≤ total
  · rw [Nat.mod_eq_sub_mod carries, Nat.mod_eq_of_lt (by omega), decide_eq_true carries,
      Bool.toNat_true]
    omega
  · rw [Nat.mod_eq_of_lt (by omega), decide_eq_false carries, Bool.toNat_false]
    omega

namespace Gates

section

variable {C S : Type} {G : Gates C S} {reads : Bit C → Bool → Prop} {dry : S → Prop}
  {left right : Word C} {width m n : Nat}

/-- Adding the complement and one subtracts, with a carry out unless the difference is negative. -/
theorem Homomorphic.subtract (hom : G.Homomorphic reads dry) {one : Bit C}
    (hl : left.Holds reads width m) (hr : right.Holds reads width n) (ho : reads one true)
    (hm : m < 2 ^ width) (hn : n < 2 ^ width) :
    (do G.add left (← G.notWord right) one).Yields dry fun answer =>
      answer.1.Holds reads width (m + 2 ^ width - n) ∧ reads answer.2 (decide (n ≤ m)) := by
  apply (hom.notWord hr).bind
  intro complement hc
  rw [Nat.mod_eq_of_lt hn] at hc
  apply (hom.add hl hc ho).mono
  intro answer ⟨difference, out⟩
  have low : 2 ^ width - (n + 1) < 2 ^ width := by omega
  rw [Nat.mod_eq_of_lt hm, Nat.mod_eq_of_lt low, Bool.toNat_true] at out
  have total : m + (2 ^ width - (n + 1)) + true.toNat = m + 2 ^ width - n := by
    rw [Bool.toNat_true]
    omega
  have compares : 2 ^ width ≤ m + (2 ^ width - (n + 1)) + 1 ↔ n ≤ m := by omega
  rw [total] at difference
  rw [decide_eq_decide.mpr compares] at out
  exact ⟨difference, out⟩

/-- A difference modulo the capacity is clear only between equal numbers. -/
theorem difference_mod_eq_zero {capacity : Nat} (hm : m < capacity) (hn : n < capacity) :
    (m + capacity - n) % capacity = 0 ↔ m = n := by
  rcases Nat.lt_or_ge m n with borrow | enough
  · rw [Nat.mod_eq_of_lt (by omega)]
    omega
  · have split : m + capacity - n = m - n + capacity := by omega
    rw [split, Nat.add_mod_right, Nat.mod_eq_of_lt (by omega)]
    omega

end

/-- The carry out of an addition makes it exact: with the weight of the word's capacity it adds up
with the sum to the operands and the carry in. It evaluates three exclusive disjunctions and two
conjunctions for every digit. With the complement of the second operand and one it is the difference
modulo the capacity, the carry out tells whether the difference is negative, and the test for zero
whether there is one. -/
theorem add_exact {S : Type} {scheme : Scheme Bool S} {G : Gates Bool S}
    (plain : scheme.PlainBit) (accepted : ofScheme scheme = .ok G) {left right : Word Bool}
    {width : Nat} (leftWidth : left.width = width) (rightWidth : right.width = width)
    (s : Session S) :
    (∀ carry, ∃ sum out t, (G.add left right carry).exec s = (.ok (sum, out), t) ∧
      sum.width = width ∧
      G.value sum + 2 ^ width * (G.decrypt out).toNat =
        G.value left + G.value right + (G.decrypt carry).toNat ∧
      t.stats.gates = s.stats.gates + (2 * width, 3 * width, 0)) ∧
    ∀ one, G.decrypt one = true → ∃ difference out t,
      (do G.add left (← G.notWord right) one : GateM S _).exec s = (.ok (difference, out), t) ∧
      difference.width = width ∧
      (G.value difference : Int) = (G.value left - G.value right : Int) % 2 ^ width ∧
      G.decrypt out = decide (G.value right ≤ G.value left) ∧
      (0 < width → ∀ u, ∃ zero t', (G.isZero difference).exec u = (.ok zero, t') ∧
        G.decrypt zero = decide (G.value left = G.value right)) := by
  obtain rfl := scheme_of_ofScheme accepted
  have hom := homomorphic plain.preserves
  have opens : G.Opens (reading fun c _ x => c = x) := plain.opens
  have hl := plain.holds leftWidth
  have hr := plain.holds rightWidth
  have hm : G.value left < 2 ^ width := leftWidth ▸ G.value_lt left
  have hn : G.value right < 2 ^ width := rightWidth ▸ G.value_lt right
  refine ⟨?_, ?_⟩
  · intro carry
    obtain ⟨⟨sum, out⟩, t, ran, ⟨holds, carried⟩, gates⟩ :=
      (hom.add hl hr (plain.reads carry)).answer_spends (G.add_spends right carry leftWidth) s
    have low : (G.decrypt carry).toNat ≤ 1 := Bool.toNat_le _
    rw [Nat.mod_eq_of_lt hm, Nat.mod_eq_of_lt hn] at carried
    refine ⟨sum, out, t, ran, holds.width_eq, ?_, gates⟩
    rw [opens.value holds, opens carried]
    exact mod_add_carry (by omega)
  · intro one set
    have ho : reading (fun c _ x => c = x) one true := set ▸ plain.reads one
    obtain ⟨⟨difference, out⟩, t, ran, holds, compared⟩ :=
      (hom.subtract hl hr ho hm hn).answer s
    refine ⟨difference, out, t, ran, holds.width_eq, ?_, opens compared, ?_⟩
    · have capacity : G.value right ≤ G.value left + 2 ^ width := by omega
      rw [opens.value holds]
      push_cast [capacity]
      rw [add_sub_right_comm, Int.add_emod_right]
    · intro positive u
      obtain ⟨zero, t', tested, clear⟩ := (hom.isZero holds positive).answer u
      refine ⟨zero, t', tested, ?_⟩
      rw [opens clear]
      exact decide_eq_decide.mpr (difference_mod_eq_zero hm hn)

/-- Six and eleven in four digits. Their sum with a carry has a carry out, and their difference is
negative. -/
theorem add_exact_eleven :
    let G : Gates Bool Unit := ⟨.plain { fresh := 3, budget := 6 }, by decide⟩
    let eleven : Word Bool := ⟨[⟨true, 6⟩, ⟨true, 3⟩, ⟨false, 5⟩, ⟨true, 4⟩]⟩
    let six : Word Bool := ⟨[⟨false, 3⟩, ⟨true, 4⟩, ⟨true, 6⟩, ⟨false, 3⟩]⟩
    (∃ sum out t, (G.add six eleven ⟨true, 3⟩).exec ⟨(), {}⟩ = (.ok (sum, out), t) ∧
      G.value sum + 16 * (G.decrypt out).toNat = 18 ∧ t.stats.gates = (8, 12, 0)) ∧
    ∃ difference out t,
      (do G.add six (← G.notWord eleven) ⟨true, 3⟩ : GateM Unit _).exec ⟨(), {}⟩ =
        (.ok (difference, out), t) ∧
      (G.value difference : Int) = 11 ∧ G.decrypt out = false ∧
      ∃ zero t', (G.isZero difference).exec t = (.ok zero, t') ∧ G.decrypt zero = false := by
  intro G eleven six
  have known := add_exact (Scheme.plainBit_plain _) (ofScheme_scheme G)
    (show six.width = 4 from rfl) (show eleven.width = 4 from rfl) ⟨(), {}⟩
  refine ⟨?_, ?_⟩
  · obtain ⟨sum, out, t, ran, _, exactly, gates⟩ := known.1 ⟨true, 3⟩
    exact ⟨sum, out, t, ran, exactly.trans (by decide), gates.trans (by decide)⟩
  · obtain ⟨difference, out, t, ran, _, value, negative, zero⟩ := known.2 ⟨true, 3⟩ rfl
    obtain ⟨zero, t', tested, clear⟩ := zero (by decide) t
    exact ⟨difference, out, t, ran, value.trans (by decide), negative.trans (by decide), zero, t',
      tested, clear.trans (by decide)⟩

/-- The increment gives the word that the sum with zero and a carry gives, whose number is one more
modulo the capacity. It negates the lowest digit, and evaluates an exclusive disjunction for every
other digit and a conjunction for all of these but the highest. The empty word is left alone. -/
theorem increment_exact {S : Type} {scheme : Scheme Bool S} {G : Gates Bool S}
    (plain : scheme.PlainBit) (accepted : ofScheme scheme = .ok G) (word : Word Bool)
    (s : Session S) :
    ∃ next t, (G.increment word).exec s = (.ok next, t) ∧ next.width = word.width ∧
      G.value next = (G.value word + 1) % 2 ^ word.width ∧
      (∀ zeros one, zeros.width = word.width → G.value zeros = 0 → G.decrypt one = true → ∀ u,
        ∃ sum out u', (G.add word zeros one).exec u = (.ok (sum, out), u') ∧
          G.decryptBits next = G.decryptBits sum) ∧
      (0 < word.width →
        t.stats.gates = s.stats.gates + (word.width - 2, word.width - 1, 1)) ∧
      (word.width = 0 → next = word ∧ t = s) := by
  obtain rfl := scheme_of_ofScheme accepted
  have hom := homomorphic plain.preserves
  have opens : G.Opens (reading fun c _ x => c = x) := plain.opens
  have hw := plain.holds (w := word) rfl
  obtain ⟨next, t, ran, holds⟩ := (hom.increment hw).answer s
  refine ⟨next, t, ran, holds.width_eq, opens.value holds, ?_, ?_, ?_⟩
  · intro zeros one same clear set u
    have hz := plain.holds same
    have ho : reading (fun c _ x => c = x) one true := set ▸ plain.reads one
    rw [clear] at hz
    obtain ⟨⟨sum, out⟩, u', added, total, _⟩ := (hom.add hw hz ho).answer u
    refine ⟨sum, out, u', added, ?_⟩
    rw [opens.decryptBits holds, opens.decryptBits total, Nat.add_zero, Bool.toNat_true]
  · intro positive
    have spent := G.increment_spends (rfl : word.width = word.width) positive s
    rw [ran] at spent
    exact spent.2
  · intro empty
    obtain ⟨bits⟩ := word
    obtain rfl := List.eq_nil_of_length_eq_zero empty
    cases ran
    exact ⟨rfl, rfl⟩

/-- Fifteen in four digits wraps around. -/
theorem increment_exact_fifteen :
    let G : Gates Bool Unit := ⟨.plain { fresh := 3, budget := 6 }, by decide⟩
    let fifteen : Word Bool := ⟨[⟨true, 6⟩, ⟨true, 3⟩, ⟨true, 5⟩, ⟨true, 4⟩]⟩
    let zeros : Word Bool := ⟨List.replicate 4 ⟨false, 6⟩⟩
    ∃ next t, (G.increment fifteen).exec ⟨(), {}⟩ = (.ok next, t) ∧ G.value next = 0 ∧
      t.stats.gates = (2, 3, 1) ∧
      ∃ sum out u, (G.add fifteen zeros ⟨true, 3⟩).exec t = (.ok (sum, out), u) ∧
        G.decryptBits next = G.decryptBits sum := by
  intro G fifteen zeros
  obtain ⟨next, t, ran, _, value, agrees, gates, _⟩ := increment_exact (Scheme.plainBit_plain _)
    (ofScheme_scheme G) fifteen ⟨(), {}⟩
  refine ⟨next, t, ran, value.trans (by decide), (gates (by decide)).trans (by decide), ?_⟩
  exact agrees zeros ⟨true, 3⟩ rfl (by decide) rfl t

end Gates

end CipherMachine
