import CipherMachine.Proofs.VisitOrder.Access
import CipherMachine.Random.ChaCha

set_option autoImplicit false

/-!
The order of visits under the two schemes.

A plain bit is its own ciphertext, so an access in another order answers the very same. Over the
integers refreshes draw other randomness in another order. Ciphertexts then differ, and what they
decrypt to, their estimates and the counters do not.
-/

namespace CipherMachine

namespace Scheme.PlainBit

variable {S : Type} {G : Gates Bool S}

/-- Words of plain bits that have the same estimates and decrypt to the same are the same. -/
theorem word_ext (plain : G.scheme.PlainBit) {v w : Word Bool} (alike : v.Alike w)
    (same : G.decryptBits v = G.decryptBits w) : v = w := by
  have bits : List.Forall₂ Eq v.bits w.bits := by
    refine (forall₂_both alike ((forall₂_map_eq_iff _).mpr same)).imp ?_
    rintro ⟨x, n⟩ ⟨y, k⟩ ⟨noise, decrypted⟩
    have cipher : x = y := by
      have opened : G.scheme.decrypt x = G.scheme.decrypt y := decrypted
      rwa [plain.decrypt, plain.decrypt] at opened
    rw [cipher, show n = k from noise]
  rw [List.forall₂_eq_eq_eq] at bits
  exact congrArg Word.mk bits

theorem same_ext (plain : G.scheme.PlainBit) {answer answer' : Word Bool × Memory Bool}
    (same : Memory.Same G answer answer') : answer = answer' := by
  obtain ⟨word, geometry, cells⟩ := answer
  obtain ⟨word', geometry', cells'⟩ := answer'
  have words : word = word' := plain.word_ext same.word same.wordBits
  have memories : List.Forall₂ Eq cells cells' :=
    (forall₂_both same.memory.cells ((forall₂_map_eq_iff _).mpr same.memoryBits)).imp
      fun _ _ both => plain.word_ext both.1 both.2
  rw [List.forall₂_eq_eq_eq] at memories
  rw [words, memories, show geometry = geometry' from same.memory.geometry]

end Scheme.PlainBit

namespace IntegerKeys

variable {R : Type} {k : IntegerKeys}

/-- A bit taken for a ciphertext, with an estimate. -/
def bare (estimate : Nat) (x : Bool) : Bit IntegerCiphertext := ⟨⟨x.toNat⟩, estimate⟩

theorem Sound.encrypts_bare (sound : k.Sound) (x : Bool) {estimate : Nat}
    (fresh : k.noise.fresh ≤ estimate) (fits : estimate ≤ k.noise.budget) :
    k.Encrypts (bare estimate x).cipher estimate x := by
  have positive : 0 < k.noise.fresh := Nat.succ_pos _
  have short : x.toNat < 2 ^ estimate :=
    Nat.lt_of_le_of_lt x.toNat_le (Nat.one_lt_two_pow (by omega))
  have secret : x.toNat < k.secret :=
    Nat.lt_of_lt_of_le short (Nat.le_trans (Nat.pow_le_pow_right Nat.two_pos fits) sound.large)
  have reduced : x.toNat < k.modulus :=
    Nat.lt_of_lt_of_le secret (Nat.le_mul_of_pos_right _ (Nat.pos_of_mul_pos_left sound.positive))
  have parity : (x.toNat % 2 == 1) = x := by
    cases x <;> rfl
  have encrypts := sound.encrypts (c := ⟨x.toNat⟩) reduced rfl short fresh fits
  rwa [parity] at encrypts

theorem generate_encrypts_bare (params : IntegerParams) (valid : params.Valid) (src : Source R)
    (r : R) (x : Bool) {estimate : Nat} (fresh : params.noiseBits.toNat + 1 ≤ estimate)
    (fits : estimate ≤ params.secretBits.toNat - 1) :
    (generate params valid src r).1.Encrypts (bare estimate x).cipher estimate x :=
  (generate_sound params valid src r).encrypts_bare x fresh fits

end IntegerKeys

namespace Memory

/-- On plain bits an access in any order of visits answers what it answers in address order, with
the same estimates and the same counters. -/
theorem access_reordered_plainBit {S : Type} {G : Gates Bool S} (plain : G.scheme.PlainBit)
    {m : Memory Bool} {address data fallback : Word Bool} {read : Bit Bool} {width : Nat}
    (operands : m.Operands address data fallback width) {order : List Nat}
    (once : order.Perm (List.range m.geometry.capacity)) (s : Session S) :
    ∃ answer t t',
      (m.access G .sequential address data read fallback).exec s = (.ok answer, t) ∧
        (m.access G (.ordered order) address data read fallback).exec s = (.ok answer, t') ∧
        t.stats = t'.stats := by
  have legible : ∀ b ∈ m.operandBits address data read fallback, ∃ x, b.cipher = x :=
    fun b _ => ⟨b.cipher, rfl⟩
  have same := access_reordered (Gates.homomorphic plain.preserves) plain.opens operands legible
    once s
  have never : ∀ fault, ¬ Exhausted (∃ _ : S, False) fault :=
    fun _ holds => holds.2.elim fun _ => id
  obtain ⟨answer, first, _⟩ := same.first.answer never
  obtain ⟨answer', second, _⟩ := same.second.answer never
  obtain ⟨agree, counters⟩ := same.answers answer answer' first second
  obtain rfl := plain.same_ext agree
  exact ⟨answer, _, _, Prod.ext first rfl, Prod.ext second rfl, counters⟩

/-- In any order of visits an access does what it does in address order. On plain bits it answers
the same word and the same memory, estimates included, and leaves the same counters. Over the
integers both orders answer or run out of randomness; the answers have the same estimates and
decrypt to the same, and the counters are the same. -/
theorem access_order_free :
    (∀ {S : Type} (G : Gates Bool S), G.scheme.PlainBit →
      ∀ {m : Memory Bool} {address data fallback : Word Bool} {read : Bit Bool} {width : Nat}
        {order : List Nat}, m.Operands address data fallback width →
        order.Perm (List.range m.geometry.capacity) → ∀ s : Session S,
        ∃ answer t t',
          (m.access G .sequential address data read fallback).exec s = (.ok answer, t) ∧
            (m.access G (.ordered order) address data read fallback).exec s = (.ok answer, t') ∧
            t.stats = t'.stats) ∧
    ∀ {R : Type} (params : IntegerParams) (valid : params.Valid) (src : Source R) (r : R),
      let k := (IntegerKeys.generate params valid src r).1
      ∀ {m : Memory IntegerCiphertext} {address data fallback : Word IntegerCiphertext}
        {read : Bit IntegerCiphertext} {width : Nat} {order : List Nat},
        m.Operands address data fallback width →
        (∀ b ∈ m.operandBits address data read fallback, ∃ x, k.Encrypts b.cipher b.noise x) →
        order.Perm (List.range m.geometry.capacity) → ∀ s : Session R,
        SameUnlessDry (∃ t, src.below k.quotientBound t = none) (Same (k.gates src))
          ((m.access (k.gates src) .sequential address data read fallback).exec s)
          ((m.access (k.gates src) (.ordered order) address data read fallback).exec s) := by
  constructor
  · intro S G plain m address data fallback read width order operands once s
    exact access_reordered_plainBit plain operands once s
  · intro R params valid src r k m address data fallback read width order operands legible once s
    have hom := (IntegerKeys.generate_sound params valid src r).homomorphic src
    exact access_reordered hom (k.opens src) operands legible once s

/-- Reads the third of four cells, visited from the middle outwards, under budgets that force
refreshes. -/
theorem access_order_free_outwards :
    let g : Geometry := ⟨1, 1, by decide, by decide, by decide⟩
    let plain : Gates Bool Unit := ⟨.plain { fresh := 3, budget := 6 }, by decide⟩
    let bits (xs : List Bool) : Word Bool := ⟨xs.map fun x => ⟨x, 5⟩⟩
    let m : Memory Bool := ⟨g, [bits [true], bits [false], bits [true], bits [false]]⟩
    let src := ChaCha.source
    let k := (IntegerKeys.generate ⟨1, 5, 6⟩ ⟨by decide, by decide, by decide⟩ src
      (ChaCha.ofSeed (List.replicate 32 7))).1
    let bare (xs : List Bool) : Word IntegerCiphertext := ⟨xs.map (IntegerKeys.bare 3)⟩
    let n : Memory IntegerCiphertext := ⟨g, [bare [true], bare [false], bare [true], bare [false]]⟩
    (∃ answer t t',
      (m.access plain .sequential (bits [false, true]) (bits [false]) ⟨true, 5⟩ (bits [false])).exec
          ⟨(), {}⟩ = (.ok answer, t) ∧
        (m.access plain (.ordered [2, 1, 3, 0]) (bits [false, true]) (bits [false]) ⟨true, 5⟩
          (bits [false])).exec ⟨(), {}⟩ = (.ok answer, t') ∧ t.stats = t'.stats) ∧
      SameUnlessDry (∃ t, src.below k.quotientBound t = none) (Same (k.gates src))
        ((n.access (k.gates src) .sequential (bare [false, true]) (bare [false])
          (IntegerKeys.bare 3 true) (bare [false])).exec ⟨ChaCha.ofSeed (List.replicate 32 9), {}⟩)
        ((n.access (k.gates src) (.ordered [2, 1, 3, 0]) (bare [false, true]) (bare [false])
          (IntegerKeys.bare 3 true) (bare [false])).exec
            ⟨ChaCha.ofSeed (List.replicate 32 9), {}⟩) := by
  intro g plain bits m src k bare n
  have order : List.Perm [2, 1, 3, 0] (List.range g.capacity) := by decide
  have sizes : m.Operands (bits [false, true]) (bits [false]) (bits [false]) 1 :=
    ⟨rfl, by decide, rfl, rfl, rfl⟩
  have bareSizes : n.Operands (bare [false, true]) (bare [false]) (bare [false]) 1 :=
    ⟨rfl, by decide, rfl, rfl, rfl⟩
  have bareBits : ∀ b ∈ n.operandBits (bare [false, true]) (bare [false])
      (IntegerKeys.bare 3 true) (bare [false]), ∃ x, b = IntegerKeys.bare 3 x := by
    decide
  refine ⟨access_order_free.1 plain (Scheme.plainBit_plain _) sizes order _,
    access_order_free.2 _ _ _ _ bareSizes ?_ order _⟩
  intro b member
  obtain ⟨x, rfl⟩ := bareBits b member
  exact ⟨x, IntegerKeys.generate_encrypts_bare _ _ _ _ x (by decide) (by decide)⟩

end Memory

end CipherMachine
