import CipherMachine.Proofs.Cost.Gates

set_option autoImplicit false

/-!
The gates of the operations on words, and the widths of their results.
-/

namespace CipherMachine

open GateM

variable {C S : Type}

namespace Word

theorem width_slice {w v : Word C} {first last : Nat} (cut : w.slice first last = .ok v) :
    v.width = last - first := by
  unfold slice at cut
  split at cut
  · rename_i within
    obtain rfl := Except.ok.inj cut
    have below := within.2
    unfold width at below ⊢
    rw [List.length_drop, List.length_take, Nat.min_eq_left below]
  · contradiction

theorem length_zip {left right : Word C} (same : ¬ left.width ≠ right.width) :
    (left.bits.zip right.bits).length = left.width := by
  rw [List.length_zip]
  unfold width at same ⊢
  omega

end Word

namespace Gates

variable (G : Gates C S) {w : Nat}

theorem selectWord_spends (selector : Bit C) {chosen : Word C} (other : Word C)
    (width : chosen.width = w) :
    Spends GateStats.gates (G.selectWord selector chosen other) (w, 2 * w, 0)
      fun out => out.width = w := by
  apply Spends.guarded
  intro same
  have pairs := (Word.length_zip same).trans width
  have chain := (Spends.loop (chosen.bits.zip other.bits) fun p _ =>
      G.select_spends selector p.1 p.2).bind fun bits answer =>
    Spends.pure (a := (⟨bits⟩ : Word C)) (P := fun out => out.width = w) (answer.1.trans pairs)
  apply chain.as
  rw [pairs]
  simp [Nat.mul_comm]

/-- A multiplexer masks every candidate and adds up all of them. -/
theorem mux_spends (first : Bit C × Word C) (rest : List (Bit C × Word C)) {n : Nat}
    (count : rest.length = n) (width : first.2.width = w) :
    Spends GateStats.gates (G.mux (first :: rest)) ((n + 1) * w, n * w, 0)
      fun out => out.width = w := by
  subst count width
  apply Spends.guarded
  intro _
  have digit : ∀ i ∈ List.range first.2.width, Spends GateStats.gates (do
      let masked ← (first :: rest).mapM fun term => do G.and term.1 (← term.2.bit i)
      G.xorAll masked) (rest.length + 1, rest.length, 0) fun _ => True := by
    intro i _
    have chain := (Spends.loop (first :: rest) fun term _ =>
        (Spends.lift (x := term.2.bit i) (P := fun _ => True) fun _ _ => trivial).bind
          fun bit _ => G.and_spends term.1 bit).bind
      fun masked answer => G.xorAll_spends masked answer.1
    apply chain.as
    simp
  have chain := (Spends.loop _ digit).bind fun bits answer =>
    Spends.pure (a := (⟨bits⟩ : Word C)) (P := fun out => out.width = first.2.width)
      (answer.1.trans List.length_range)
  apply chain.as
  simp [Nat.mul_comm]

/-- A bit is negated once if some pattern has a zero in its place. -/
theorem negations_spends (patterns : List Nat) (i : Nat) (bits : List (Bit C)) :
    Spends GateStats.gates (G.negations patterns i bits)
      (0, 0, (List.range' i bits.length).countP fun j => patterns.any fun p => !p.testBit j)
      fun out => out.length = bits.length := by
  induction bits generalizing i with
  | nil => exact .pure rfl
  | cons bit rest ih =>
      rw [negations, List.length_cons, List.range'_succ, List.countP_cons]
      have others := fun negated : Option (Bit C) => (ih (i + 1)).bind fun others length =>
        Spends.pure (a := negated :: others) (P := fun out => out.length = rest.length + 1)
          (congrArg Nat.succ length)
      split
      · have needed := (G.not_spends bit).map (f := some) (R := fun _ => True) fun _ _ => trivial
        apply (needed.bind fun negated _ => others negated).as
        simp [Nat.add_comm]
      · have unneeded : Spends GateStats.gates (pure none : GateM S (Option (Bit C))) 0
            fun _ => True := .pure trivial
        apply (unneeded.bind fun negated _ => others negated).as
        simp

theorem length_literals (pattern i : Nat) {bits : List (Bit C)} {negated : List (Option (Bit C))}
    (length : negated.length = bits.length) :
    (literals pattern i bits negated).length = bits.length := by
  induction bits generalizing i negated with
  | nil => cases negated <;> rfl
  | cons bit rest ih =>
      cases negated with
      | nil => contradiction
      | cons head others =>
          rw [literals, List.length_cons, List.length_cons, ih (i + 1) (Nat.succ.inj length)]

theorem matchPatterns_spends {bits : List (Bit C)} (length : bits.length = w)
    (patterns : List Nat) :
    Spends GateStats.gates (G.matchPatterns bits patterns)
      (patterns.length * (w - 1), 0,
        (List.range w).countP fun j => patterns.any fun p => !p.testBit j)
      fun out => out.length = patterns.length := by
  subst length
  apply Spends.guarded
  intro _
  have chain := (G.negations_spends patterns 0 bits).bind fun negated same =>
    Spends.loop patterns fun pattern _ => G.andAll_spends _ (length_literals pattern 0 same)
  refine (chain.as _ ?_).mono fun out answer => answer.1
  simp [List.range_eq_range']

/-- A decoder negates every bit, since its pattern zero does. -/
theorem decoder_spends {bits : List (Bit C)} (length : bits.length = w) :
    Spends GateStats.gates (G.matchPatterns bits (List.range (2 ^ w))) (2 ^ w * (w - 1), 0, w)
      fun out => out.length = 2 ^ w := by
  have spends := G.matchPatterns_spends length (List.range (2 ^ w))
  have all : ((List.range w).countP fun j =>
      (List.range (2 ^ w)).any fun p => !p.testBit j) = w := by
    rw [List.countP_eq_length.mpr, List.length_range]
    intro j _
    rw [List.any_eq_true]
    exact ⟨0, List.mem_range.mpr (Nat.two_pow_pos _), by rw [Nat.zero_testBit, Bool.not_false]⟩
  rw [all, List.length_range] at spends
  exact spends

theorem ripple_spends (pairs : List (Bit C × Bit C)) (carry : Bit C) :
    Spends GateStats.gates (G.ripple pairs carry) (2 * pairs.length, 3 * pairs.length, 0)
      fun out => out.1.length = pairs.length := by
  induction pairs generalizing carry with
  | nil => exact .pure rfl
  | cons pair rest ih =>
      have chain := (G.xor_spends pair.1 pair.2).bind fun half _ =>
        (G.xor_spends half carry).bind fun digit _ =>
        (G.and_spends pair.1 pair.2).bind fun generated _ =>
        (G.and_spends half carry).bind fun propagated _ =>
        (G.xor_spends generated propagated).bind fun next _ =>
        (ih next).bind fun sum length =>
        Spends.pure (a := (digit :: sum.1, sum.2))
          (P := fun out => out.1.length = (pair :: rest).length) (congrArg Nat.succ length)
      apply chain.as
      simp only [Prod.add_def, Prod.fst_zero, Prod.snd_zero, List.length_cons, Prod.mk.injEq]
      omega

theorem add_spends {left : Word C} (right : Word C) (carry : Bit C) (width : left.width = w) :
    Spends GateStats.gates (G.add left right carry) (2 * w, 3 * w, 0)
      fun out => out.1.width = w := by
  apply Spends.guarded
  intro same
  have pairs := (Word.length_zip same).trans width
  have spends := G.ripple_spends (left.bits.zip right.bits) carry
  rw [pairs] at spends
  have chain := spends.bind fun sum length =>
    Spends.pure (a := ((⟨sum.1⟩, sum.2) : Word C × Bit C)) (P := fun out => out.1.width = w) length
  exact chain.as _ (add_zero _)

/-- The highest digit has no carry out. -/
theorem propagate_spends (carry : Bit C) (bits : List (Bit C)) :
    Spends GateStats.gates (G.propagate carry bits) (bits.length - 1, bits.length, 0)
      fun out => out.length = bits.length := by
  induction bits generalizing carry with
  | nil => exact .pure rfl
  | cons bit rest ih =>
      cases rest with
      | nil =>
          have chain := (G.xor_spends bit carry).bind fun digit _ =>
            Spends.pure (a := [digit]) (P := fun out => out.length = 1) rfl
          exact chain.as _ (add_zero _)
      | cons next rest =>
          have chain := (G.xor_spends bit carry).bind fun digit _ =>
            (G.and_spends bit carry).bind fun carry _ => (ih carry).bind fun digits length =>
            Spends.pure (a := digit :: digits)
              (P := fun out => out.length = (bit :: next :: rest).length)
              (congrArg Nat.succ length)
          apply chain.as
          simp [Nat.add_comm]

theorem increment_spends {word : Word C} (width : word.width = w) (positive : 0 < w) :
    Spends GateStats.gates (G.increment word) (w - 2, w - 1, 1) fun out => out.width = w := by
  subst width
  obtain ⟨bits⟩ := word
  cases bits with
  | nil => contradiction
  | cons first rest =>
      have chain := (G.not_spends first).bind fun low _ =>
        (G.propagate_spends first rest).bind fun digits length =>
        Spends.pure (a := (⟨low :: digits⟩ : Word C))
          (P := fun out => out.width = rest.length + 1) (congrArg Nat.succ length)
      apply chain.as
      simp [Word.width]

theorem isZero_spends {word : Word C} (width : word.width = w) :
    Spends GateStats.gates (G.isZero word) (w - 1, 2 * (w - 1), 1) fun _ => True :=
  (G.orAll_spends word.bits width).bind fun any _ => G.not_spends any

theorem notWord_spends {word : Word C} (width : word.width = w) :
    Spends GateStats.gates (G.notWord word) (0, 0, w) fun out => out.width = w := by
  subst width
  have chain := (Spends.loop word.bits fun bit _ => G.not_spends bit).bind fun bits answer =>
    Spends.pure (a := (⟨bits⟩ : Word C)) (P := fun out => out.width = word.width) answer.1
  apply chain.as
  simp [Word.width]

theorem zipWord_spends {combine : Bit C → Bit C → GateM S (Bit C)} {cost : Nat × Nat × Nat}
    (law : ∀ a b, Spends GateStats.gates (combine a b) cost fun _ => True)
    {left : Word C} (right : Word C) (width : left.width = w) :
    Spends GateStats.gates (zipWord combine left right) (w • cost) fun out => out.width = w := by
  apply Spends.guarded
  intro same
  have pairs := (Word.length_zip same).trans width
  have chain := (Spends.loop (left.bits.zip right.bits) fun p _ => law p.1 p.2).bind
    fun bits answer => Spends.pure (a := (⟨bits⟩ : Word C)) (P := fun out => out.width = w)
      (answer.1.trans pairs)
  rw [pairs, add_zero] at chain
  exact chain

end Gates

end CipherMachine
