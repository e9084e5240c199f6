import Mathlib.Data.List.Nodup
import CipherMachine.Proofs.Cost.Words
import CipherMachine.Proofs.PlainBit

set_option autoImplicit false

/-!
Pattern matching is equality of numbers.

A word matches a pattern if its number is the pattern's residue modulo the word's capacity. So among
patterns with distinct residues one matches at most, and exactly one if every residue is there.
-/

namespace CipherMachine

open GateM

namespace Gates

variable {C S : Type} {G : Gates C S}

/-- A word that decrypts to a number has 64 bits at most, and the number is its value. -/
theorem decryptWord_eq_ok {word : Word C} {v : Nat} (decrypts : G.decryptWord word = .ok v) :
    word.width ≤ 64 ∧ G.value word = v := by
  unfold decryptWord at decrypts
  split at decrypts
  · rename_i narrow
    exact ⟨narrow, Except.ok.inj decrypts⟩
  · contradiction

theorem matchPatterns_singleton (G : Gates C S) (bits : List (Bit C)) (pattern : Nat) :
    G.matchPatterns bits [pattern] = (fun b => [b]) <$> G.matchPattern bits pattern := by
  unfold matchPatterns matchPattern
  by_cases wide : 64 < bits.length
  · simp only [wide, if_true]
    rfl
  · simp only [wide, if_false, List.mapM_cons, List.mapM_nil, map_eq_pure_bind, bind_assoc,
      pure_bind]

theorem Homomorphic.matches {reads : Bit C → Bool → Prop} {dry : S → Prop}
    (hom : G.Homomorphic reads dry) (opens : G.Opens reads) {word : Word C} {v : Nat}
    (holds : word.Holds reads word.width v) (below : v < 2 ^ word.width)
    (positive : 0 < word.width) (narrow : word.width ≤ 64) (patterns : List Nat) :
    (G.matchPatterns word.bits patterns).Yields dry fun out =>
      out.map G.decrypt = (patterns.map (· % 2 ^ word.width)).map fun r => decide (v = r) := by
  apply (hom.matchPatterns holds positive narrow patterns).mono
  intro out answer
  rw [List.map_map, ← List.forall₂_eq_eq_eq, List.forall₂_map_left_iff, List.forall₂_map_right_iff]
  apply answer.imp
  intro b pattern read
  rw [Nat.mod_eq_of_lt below] at read
  exact opens read

end Gates

theorem count_decide_eq (residues : List Nat) (v : Nat) :
    (residues.map fun r => decide (v = r)).count true = residues.count v := by
  rw [List.count_eq_countP, List.countP_map, List.count_eq_countP]
  apply List.countP_congr
  intro r _
  simp only [Function.comp_apply, beq_iff_eq, decide_eq_true_eq]
  exact eq_comm

/-- Matching answers with one bit for each pattern, in order, which tells whether the word's number
is the pattern's residue. It negates each bit that some pattern has a zero for once, and takes a
conjunction of all bits for each pattern. Matching a single pattern is matching a list of it. -/
theorem Gates.matchPatterns_exact {S : Type} {scheme : Scheme Bool S} {G : Gates Bool S}
    (plain : scheme.PlainBit) (accepted : ofScheme scheme = .ok G) {word : Word Bool} {v : Nat}
    (decrypts : G.decryptWord word = .ok v) (positive : 0 < word.width) (patterns : List Nat)
    (s : Session S) :
    let residues := patterns.map (· % 2 ^ word.width)
    (∃ out t, (G.matchPatterns word.bits patterns).exec s = (.ok out, t) ∧
      out.map G.decrypt = residues.map (fun r => decide (v = r)) ∧
      (residues.Nodup → (out.map G.decrypt).count true ≤ 1 ∧
        ((∀ r < 2 ^ word.width, r ∈ residues) → (out.map G.decrypt).count true = 1)) ∧
      t.stats.gates = s.stats.gates + (patterns.length * (word.width - 1), 0,
        (List.range word.width).countP fun i => patterns.any fun pattern => !pattern.testBit i)) ∧
    ∀ pattern, ∃ b t, (G.matchPattern word.bits pattern).exec s = (.ok b, t) ∧
      (G.matchPatterns word.bits [pattern]).exec s = (.ok [b], t) ∧
      G.decrypt b = decide (v = pattern % 2 ^ word.width) := by
  obtain rfl := scheme_of_ofScheme accepted
  intro residues
  obtain ⟨narrow, rfl⟩ := decryptWord_eq_ok decrypts
  have hom := homomorphic plain.preserves
  have below := G.value_lt word
  have holds := plain.holds (w := word) rfl
  have matched := hom.matches plain.opens holds below positive narrow
  refine ⟨?_, ?_⟩
  · obtain ⟨out, t, ran, values, gates⟩ :=
      (matched patterns).answer_spends (G.matchPatterns_spends rfl patterns) s
    refine ⟨out, t, ran, values, ?_, gates⟩
    intro distinct
    rw [values, count_decide_eq]
    refine ⟨List.nodup_iff_count_le_one.mp distinct _, ?_⟩
    intro covered
    exact List.count_eq_one_of_mem distinct (covered _ below)
  · intro pattern
    obtain ⟨b, t, ran, value⟩ := (hom.matchPattern holds positive narrow pattern).answer s
    rw [Nat.mod_eq_of_lt below] at value
    refine ⟨b, t, ran, ?_, plain.opens value⟩
    rw [G.matchPatterns_singleton, map_eq_pure_bind, exec_bind, ran]
    rfl

/-- The number three in three bits, against patterns of which one occurs twice, one has bits above
the third and none has a zero in the first place. -/
theorem Gates.matchPatterns_exact_three :
    let G : Gates Bool Unit := ⟨.plain { fresh := 3, budget := 6 }, by decide⟩
    let word : Word Bool := ⟨[⟨true, 6⟩, ⟨true, 3⟩, ⟨false, 5⟩]⟩
    (∃ out t, (G.matchPatterns word.bits [3, 11, 7, 5, 3]).exec ⟨(), {}⟩ = (.ok out, t) ∧
      out.map G.decrypt = [true, true, false, false, true] ∧ t.stats.gates = (10, 0, 2)) ∧
    ∃ out t, (G.matchPatterns word.bits (List.range 8)).exec ⟨(), {}⟩ = (.ok out, t) ∧
      (out.map G.decrypt).count true = 1 := by
  intro G word
  have known := matchPatterns_exact (Scheme.plainBit_plain _) (ofScheme_scheme G)
    (show G.decryptWord word = .ok 3 from rfl) (by decide)
  refine ⟨?_, ?_⟩
  · obtain ⟨out, t, ran, values, _, gates⟩ := (known [3, 11, 7, 5, 3] ⟨(), {}⟩).1
    exact ⟨out, t, ran, values.trans (by decide), gates.trans (by decide)⟩
  · obtain ⟨out, t, ran, _, once, _⟩ := (known (List.range 8) ⟨(), {}⟩).1
    exact ⟨out, t, ran, (once (by decide)).2 (by decide)⟩

end CipherMachine
