import CipherMachine.Proofs.VisitOrder.Access

set_option autoImplicit false

/-!
On plain bits an oblivious access is an access of an array.

The address is a row and a column in one number. Whatever the schedule and whatever estimates the
bits carry, a read gives the cell of that row and column, and a write replaces this cell alone.
-/

namespace CipherMachine

open GateM

variable {S : Type}

/-- The low bits of an address are its column, the bits above them its row. -/
theorem Memory.value_address {C : Type} (G : Gates C S) (g : Geometry) {address : Word C}
    (width : address.width = g.addressBits) :
    G.value address = G.value ⟨address.bits.drop g.colBits⟩ * 2 ^ g.colBits +
      G.value ⟨address.bits.take g.colBits⟩ := by
  have low : ((address.bits.take g.colBits).map G.decrypt).length = g.colBits := by
    have bits : address.bits.length = g.rowBits + g.colBits := width
    rw [List.length_map, List.length_take, bits]
    omega
  have value := binaryValue_append ((address.bits.take g.colBits).map G.decrypt)
    ((address.bits.drop g.colBits).map G.decrypt)
  rw [← List.map_append, List.take_append_drop, low, Nat.add_comm, Nat.mul_comm] at value
  exact value

/-- An access of a memory of plain bits answers. A read gives the addressed cell and changes no
cell; a write gives the fallback and changes the addressed cell alone. -/
theorem Memory.access_array {scheme : Scheme Bool S} {G : Gates Bool S} (plain : scheme.PlainBit)
    (accepted : Gates.ofScheme scheme = .ok G) {m : Memory Bool}
    {address data fallback : Word Bool} {width : Nat}
    (operands : m.Operands address data fallback width) (read : Bit Bool) (schedule : Schedule)
    (covers : schedule.Covers m.geometry.capacity) (s : Session S) :
    let column := G.value ⟨address.bits.take m.geometry.colBits⟩
    let row := G.value ⟨address.bits.drop m.geometry.colBits⟩
    let place := row * 2 ^ m.geometry.colBits + column
    G.value address = place ∧ ∃ answer after t,
      (m.access G schedule address data read fallback).exec s = (.ok (answer, after), t) ∧
        after.geometry = m.geometry ∧
        (G.decrypt read = true →
          (m.cells.map G.decryptBits)[place]? = some (G.decryptBits answer) ∧
            after.cells.map G.decryptBits = m.cells.map G.decryptBits) ∧
        (G.decrypt read = false →
          G.decryptBits answer = G.decryptBits fallback ∧
            ∀ i, (after.cells.map G.decryptBits)[i]? =
              if i = place then some (G.decryptBits data)
              else (m.cells.map G.decryptBits)[i]?) := by
  intro column row place
  obtain rfl := Gates.scheme_of_ofScheme accepted
  have value : G.value address = place := value_address G m.geometry operands.address
  have within : place < (m.cells.map G.decryptBits).length := by
    rw [List.length_map, operands.size, ← value]
    exact value_lt_capacity G operands.address
  have legible : ∀ b ∈ m.operandBits address data read fallback, ∃ x, b.cipher = x :=
    fun b _ => ⟨b.cipher, rfl⟩
  have yields := access_decrypts (Gates.homomorphic plain.preserves) plain.opens operands legible
    schedule covers s
  obtain ⟨⟨answer, after⟩, ran, geometry, array⟩ := yields.answer
    fun _ exhausted => exhausted.2
  rw [value] at array
  refine ⟨value, answer, after, _, Prod.ext ran rfl, geometry, ?_, ?_⟩
  · intro reading
    rw [reading] at array
    obtain ⟨found, unchanged⟩ := Prod.mk.inj array
    rw [found, List.getD_eq_getElem _ _ within]
    exact ⟨List.getElem?_eq_getElem within, unchanged⟩
  · intro writing
    rw [writing] at array
    obtain ⟨kept, replaced⟩ := Prod.mk.inj array
    refine ⟨kept, fun i => ?_⟩
    rw [replaced, List.getElem?_set, if_pos within]
    exact if_congr eq_comm rfl rfl

/-- Writes the third of four words of two bits, whose estimates stand at the budget, visiting the
cells from the last one on. -/
theorem Memory.access_array_write :
    let G : Gates Bool Unit := ⟨.plain { fresh := 3, budget := 6 }, by decide⟩
    let word (xs : List Bool) : Word Bool := ⟨xs.map fun x => ⟨x, 6⟩⟩
    let m : Memory Bool := ⟨⟨1, 1, by decide, by decide, by decide⟩,
      [word [true, true], word [false, true], word [true, false], word [false, false]]⟩
    ∃ answer after t,
      (m.access G (.ordered [3, 2, 1, 0]) (word [false, true]) (word [false, true]) ⟨false, 6⟩
          (word [true, true])).exec ⟨(), {}⟩ = (.ok (answer, after), t) ∧
        G.decryptBits answer = [true, true] ∧
        (after.cells.map G.decryptBits)[2]? = some [false, true] ∧
        (after.cells.map G.decryptBits)[3]? = some [false, false] := by
  intro G word m
  have operands : m.Operands (word [false, true]) (word [false, true]) (word [true, true]) 2 :=
    ⟨rfl, by decide, rfl, rfl, rfl⟩
  have covers : ∀ i < m.geometry.capacity, i ∈ [3, 2, 1, 0] := by decide
  obtain ⟨_, answer, after, t, ran, _, _, write⟩ := access_array (Scheme.plainBit_plain _)
    (Gates.ofScheme_scheme G) operands ⟨false, 6⟩ (.ordered [3, 2, 1, 0]) covers ⟨(), {}⟩
  obtain ⟨kept, cells⟩ := write rfl
  exact ⟨answer, after, t, ran, kept, cells 2, cells 3⟩

end CipherMachine
