import CipherMachine.Gates.Reduction
import CipherMachine.Proofs.Homomorphism

set_option autoImplicit false

/-!
Reductions stand for a fold, whatever the shape of the tree.

The operation has to be associative. One pass keeps the fold and halves the length, so the passes
that a length calls for end with one bit, which stands for the fold of them all.
-/

namespace CipherMachine

open GateM

def parity (xs : List Bool) : Bool := xs.foldr (· ^^ ·) false

@[simp] theorem parity_nil : parity [] = false := rfl

@[simp] theorem parity_cons (x : Bool) (xs : List Bool) : parity (x :: xs) = (x ^^ parity xs) := rfl

theorem foldr_and (xs : List Bool) : xs.foldr (· && ·) true = xs.all id := by
  induction xs with
  | nil => rfl
  | cons x xs ih => rw [List.foldr_cons, ih, List.all_cons, id]

theorem foldr_or (xs : List Bool) : xs.foldr (· || ·) false = xs.any id := by
  induction xs with
  | nil => rfl
  | cons x xs ih => rw [List.foldr_cons, ih, List.any_cons, id]

section

variable {C S : Type} {dry : S → Prop} {reads : Bit C → Bool → Prop}
  {combine : Bit C → Bit C → GateM S (Bit C)} {op : Bool → Bool → Bool} {unit : Bool}

theorem pairwise_yields (assoc : ∀ x y z, op (op x y) z = op x (op y z))
    (law : ∀ {a b x y}, reads a x → reads b y → (combine a b).Yields dry (reads · (op x y)))
    {bits : List (Bit C)} {xs : List Bool} (read : List.Forall₂ reads bits xs) :
    (pairwise combine bits).Yields dry fun out => ∃ ys,
      List.Forall₂ reads out ys ∧ ys.length = (xs.length + 1) / 2 ∧
        ∀ unit, ys.foldr op unit = xs.foldr op unit := by
  induction bits using pairwise.induct generalizing xs with
  | case1 first second rest ih =>
      obtain _ | @⟨_, x, _, _, hx, _ | @⟨_, y, _, xs, hy, tail⟩⟩ := read
      refine (law hx hy).bind fun head combined => ?_
      refine (ih tail).bind fun out ⟨ys, outs, length, fold⟩ => ?_
      refine .pure ⟨op x y :: ys, .cons combined outs, ?_, ?_⟩
      · simp only [List.length_cons, length]
        omega
      · intro unit
        rw [List.foldr_cons, fold, assoc, List.foldr_cons, List.foldr_cons]
  | case2 last =>
      obtain _ | @⟨_, x, _, _, hx, _ | _⟩ := read
      exact .pure ⟨[x], .cons hx .nil, by simp, fun _ => rfl⟩
  | case3 =>
      obtain _ | _ := read
      exact .pure ⟨[], .nil, rfl, fun _ => rfl⟩

theorem passes_yields (assoc : ∀ x y z, op (op x y) z = op x (op y z))
    (right_unit : ∀ x, op x unit = x)
    (law : ∀ {a b x y}, reads a x → reads b y → (combine a b).Yields dry (reads · (op x y)))
    (length : Nat) {bits : List (Bit C)} {xs : List Bool} (read : List.Forall₂ reads bits xs)
    (measured : xs.length = length) (nonempty : xs ≠ []) :
    (passes combine (passCount length) bits).Yields dry fun out => ∃ b,
      out = [b] ∧ reads b (xs.foldr op unit) := by
  induction length using passCount.induct generalizing bits xs with
  | case1 length short =>
      rw [passCount, if_pos short]
      obtain _ | @⟨b, x, bits, xs, hx, tail⟩ := read
      · exact absurd rfl nonempty
      · obtain rfl : xs = [] := by
          apply List.eq_nil_of_length_eq_zero
          simp only [List.length_cons] at measured
          omega
        obtain _ | _ := tail
        refine .pure ⟨b, rfl, ?_⟩
        rw [List.foldr_cons, List.foldr_nil, right_unit]
        exact hx
  | case2 length long ih =>
      rw [passCount, if_neg long]
      refine (pairwise_yields assoc law read).bind fun out ⟨ys, outs, half, fold⟩ => ?_
      rw [← fold unit]
      apply ih outs
      · rw [half, measured]
      · intro empty
        rw [empty, List.length_nil] at half
        omega

theorem reduce_yields (assoc : ∀ x y z, op (op x y) z = op x (op y z))
    (right_unit : ∀ x, op x unit = x)
    (law : ∀ {a b x y}, reads a x → reads b y → (combine a b).Yields dry (reads · (op x y)))
    {bits : List (Bit C)} {xs : List Bool} (read : List.Forall₂ reads bits xs)
    (nonempty : xs ≠ []) :
    (Gates.reduce combine bits).Yields dry (reads · (xs.foldr op unit)) := by
  have length := read.length_eq
  cases bits with
  | nil =>
      rw [List.length_nil] at length
      exact absurd (List.eq_nil_of_length_eq_zero length.symm) nonempty
  | cons first rest =>
      refine (passes_yields assoc right_unit law _ read length.symm nonempty).bind ?_
      rintro _ ⟨b, rfl, top⟩
      exact .pure top

end

namespace Gates.Homomorphic

variable {C S : Type} {G : Gates C S} {reads : Bit C → Bool → Prop} {dry : S → Prop}
  {bits : List (Bit C)} {xs : List Bool}

theorem or (hom : G.Homomorphic reads dry) {a b : Bit C} {x y : Bool} (ha : reads a x)
    (hb : reads b y) : (G.or a b).Yields dry (reads · (x || y)) := by
  refine (hom.xor ha hb).bind fun sum hs => ?_
  refine (hom.and ha hb).bind fun carry hc => ?_
  refine (hom.xor hs hc).mono fun c answer => ?_
  have sum_or : (x ^^ y ^^ (x && y)) = (x || y) := by cases x <;> cases y <;> rfl
  rwa [sum_or] at answer

theorem andAll (hom : G.Homomorphic reads dry) (read : List.Forall₂ reads bits xs)
    (nonempty : xs ≠ []) : (G.andAll bits).Yields dry (reads · (xs.all id)) := by
  rw [← foldr_and]
  exact reduce_yields Bool.and_assoc Bool.and_true hom.and read nonempty

theorem orAll (hom : G.Homomorphic reads dry) (read : List.Forall₂ reads bits xs)
    (nonempty : xs ≠ []) : (G.orAll bits).Yields dry (reads · (xs.any id)) := by
  rw [← foldr_or]
  exact reduce_yields Bool.or_assoc Bool.or_false hom.or read nonempty

theorem xorAll (hom : G.Homomorphic reads dry) (read : List.Forall₂ reads bits xs)
    (nonempty : xs ≠ []) : (G.xorAll bits).Yields dry (reads · (parity xs)) :=
  reduce_yields Bool.xor_assoc Bool.xor_false hom.xor read nonempty

end Gates.Homomorphic

end CipherMachine
