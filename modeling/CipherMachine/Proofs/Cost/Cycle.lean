import CipherMachine.Proofs.Cost.Memory

set_option autoImplicit false

/-!
The gates of a cycle, phase by phase.

Every phase evaluates every candidate, so what it spends depends on the memory's shape alone.
-/

namespace CipherMachine

open GateM

variable {C S : Type}

/-- The widths of the registers: an address in the program counter, and words. -/
structure EncryptedRegisters.Sized (r : EncryptedRegisters C) (g : Geometry) : Prop where
  pc : r.pc.width = g.addressBits
  ac : r.ac.width = 16
  staging : r.staging.width = 16

theorem Geometry.two_le_addressBits (g : Geometry) : 2 ≤ g.addressBits :=
  Nat.add_le_add g.rowBits_pos g.colBits_pos

namespace Cycle

variable (G : Gates C S) {g : Geometry} {schedule : Schedule} {m : Memory C} (d : Decoded C)
  {r : EncryptedRegisters C}

theorem selector_spends (op : Opcode) :
    Spends GateStats.gates (liftM (d.selector op) : GateM S (Bit C)) 0 fun _ => True :=
  .lift fun _ _ => trivial

theorem slice_spends (w : Word C) (first last : Nat) :
    Spends GateStats.gates (liftM (w.slice first last) : GateM S (Word C)) 0
      fun out => out.width = last - first :=
  .lift fun _ cut => Word.width_slice cut

/-- The fifteen patterns of four bits, which share four negations. -/
theorem decode_spends (instruction : Word C) :
    Spends GateStats.gates (decode G instruction) (45, 0, 4) fun d => d.operand.width = 8 := by
  have selectors : ∀ nibble : Word C, nibble.width = 12 - 8 →
      Spends GateStats.gates (G.matchPatterns nibble.bits (Opcode.all.map (·.nibble.toNat)))
        (45, 0, 4) fun _ => True := by
    intro nibble width
    have spends := G.matchPatterns_spends width (Opcode.all.map (·.nibble.toNat))
    exact (spends.as _ (by decide)).mono fun _ _ => trivial
  have chain := (slice_spends instruction 8 12).bind fun nibble width =>
    (selectors nibble width).bind fun selectors _ =>
    (Spends.lift (x := instruction.bit 12) (P := fun _ => True) fun _ _ => trivial).bind
      fun indirect _ => (slice_spends instruction 0 8).bind fun operand width =>
    Spends.pure (a := (⟨selectors, indirect, operand⟩ : Decoded C))
      (P := fun d => d.operand.width = 8) width
  exact chain

theorem memoryStage_spends (enumerates : schedule.Enumerates g.capacity) (hm : m.Sized g 16)
    (hr : r.Sized g) :
    Spends GateStats.gates (memoryStage G schedule d r m)
      ((g.addressBits, 2 * g.addressBits, 1) + Memory.accessGates g 16)
      fun (address, loaded, m) =>
        address.width = g.addressBits ∧ loaded.width = 16 ∧ m.Sized g 16 := by
  have chain := (slice_spends r.ac 0 r.pc.width).bind fun accumulator width =>
    (slice_spends d.operand 0 r.pc.width).bind fun operand _ =>
    (G.selectWord_spends d.indirect operand (width.trans hr.pc)).bind fun address same =>
    (selector_spends d .store).bind fun store _ => (G.not_spends store).bind fun read _ =>
    (m.access_spends G enumerates hm address read hr.ac hr.staging).bind fun answer sized =>
    Spends.pure (a := (address, answer.1, answer.2))
      (P := fun (address, loaded, m) =>
        address.width = g.addressBits ∧ loaded.width = 16 ∧ m.Sized g 16)
      ⟨same, sized⟩
  apply chain.as
  simp [Prod.add_def]

theorem execute_spends (hr : r.Sized g) (one : Bit C) (loaded : Word C) :
    Spends GateStats.gates (execute G one d r loaded)
      (54 + g.addressBits, 87 + g.addressBits, 9)
      fun e => e.loaded.width = 8 ∧ e.difference.width = 8 := by
  have least := g.two_le_addressBits
  have positive : 0 < g.addressBits := Nat.lt_of_lt_of_le Nat.zero_lt_two least
  have chain := (slice_spends r.ac 0 8).bind fun a ha =>
    (slice_spends loaded 0 8).bind fun loaded hl =>
    (G.selectWord_spends d.indirect d.operand hl).bind fun b hb =>
    (G.add_spends b r.carry ha).bind fun sum _ =>
    (Gates.zipWord_spends G.xor_spends b ha).bind fun xor _ =>
    (Gates.zipWord_spends G.and_spends b ha).bind fun and _ =>
    (Gates.zipWord_spends G.or_spends b ha).bind fun or _ =>
    (G.notWord_spends hb).bind fun complement _ =>
    (G.add_spends complement one ha).bind fun difference hd =>
    (G.increment_spends hr.pc positive).bind fun nextPc _ =>
    Spends.pure
      (a := (⟨a, loaded, a.rotateLeft r.carry, a.rotateRight r.carry, sum, xor, and, or,
        difference.1, nextPc⟩ : Candidates C))
      (P := fun e => e.loaded.width = 8 ∧ e.difference.width = 8) ⟨hl, hd⟩
  apply chain.as
  simp only [Prod.add_def, Prod.smul_mk, Nat.nsmul_eq_mul, Prod.fst_zero, Prod.snd_zero,
    Prod.mk.injEq]
  omega

variable (r) (e : Candidates C)

/-- The selectors of the operations without a result are added up before the multiplexer. -/
theorem result_spends (loaded : e.loaded.width = 8) :
    Spends GateStats.gates (result G d e) (72, 70, 0) fun out => out.width = 8 := by
  have chain := (selector_spends d .store).bind fun store _ =>
    (selector_spends d .clc).bind fun clc _ => (selector_spends d .sec).bind fun sec _ =>
    (selector_spends d .beq).bind fun beq _ => (selector_spends d .jmp).bind fun jmp _ =>
    (selector_spends d .bmi).bind fun bmi _ => (selector_spends d .cmp).bind fun cmp _ =>
    (G.xorAll_spends [store, clc, sec, beq, jmp, bmi, cmp] (n := 7) rfl).bind fun keep _ =>
    (selector_spends d .load).bind fun load _ => (selector_spends d .la).bind fun la _ =>
    (selector_spends d .rol).bind fun rol _ => (selector_spends d .ror).bind fun ror _ =>
    (selector_spends d .add).bind fun add _ => (selector_spends d .xor).bind fun xor _ =>
    (selector_spends d .and).bind fun and _ => (selector_spends d .or).bind fun or _ =>
    G.mux_spends (load, e.loaded) [(la, d.operand), (rol, e.left.1), (ror, e.right.1),
      (add, e.sum.1), (xor, e.xor), (and, e.and), (or, e.or), (keep, e.low)] (n := 8) rfl loaded
  exact chain.as _ (by simp)

theorem carry_spends :
    Spends GateStats.gates (Cycle.carry G d r e) (4, 8, 1) fun _ => True := by
  have chain := (selector_spends d .add).bind fun add _ =>
    (selector_spends d .rol).bind fun rol _ => (selector_spends d .ror).bind fun ror _ =>
    (selector_spends d .sec).bind fun sec _ => (selector_spends d .clc).bind fun clc _ =>
    (G.xorAll_spends [add, rol, ror, clc, sec] (n := 5) rfl).bind fun written _ =>
    (G.and_spends add e.sum.2).bind fun fromAdd _ =>
    (G.and_spends rol e.left.2).bind fun fromLeft _ =>
    (G.and_spends ror e.right.2).bind fun fromRight _ =>
    (G.not_spends written).bind fun idle _ => (G.and_spends idle r.carry).bind fun kept _ =>
    G.xorAll_spends [fromAdd, fromLeft, fromRight, sec, kept] (n := 5) rfl
  exact chain.as _ (by simp)

theorem zero_spends (difference : e.difference.width = 8) {result : Word C}
    (width : result.width = 8) :
    Spends GateStats.gates (Cycle.zero G d r e result) (17, 33, 2) fun _ => True := by
  have chain := (selector_spends d .beq).bind fun beq _ =>
    (selector_spends d .bmi).bind fun bmi _ => (G.xor_spends beq bmi).bind fun branch _ =>
    (G.and_spends branch r.zero).bind fun held _ =>
    (G.isZero_spends difference).bind fun equal _ =>
    (G.isZero_spends width).bind fun cleared _ => (G.or_spends cleared held).bind fun other _ =>
    (selector_spends d .cmp).bind fun cmp _ => G.select_spends cmp equal other
  exact chain.as _ (by simp)

theorem minus_spends : Spends GateStats.gates (Cycle.minus G d r e) (1, 2, 0) fun _ => True := by
  have chain := (selector_spends d .cmp).bind fun cmp _ =>
    (Spends.lift (x := e.difference.bit 7) (P := fun _ => True) fun _ _ => trivial).bind
      fun sign _ => G.select_spends cmp sign r.minus
  exact chain.as _ (by simp)

theorem taken_spends (zero minus : Bit C) :
    Spends GateStats.gates (taken G d zero minus) (2, 2, 0) fun _ => True := by
  have chain := (selector_spends d .bmi).bind fun bmi _ =>
    (G.and_spends bmi minus).bind fun onMinus _ => (selector_spends d .beq).bind fun beq _ =>
    (G.and_spends beq zero).bind fun onZero _ => (selector_spends d .jmp).bind fun jmp _ =>
    G.xorAll_spends [jmp, onMinus, onZero] (n := 3) rfl
  exact chain.as _ (by simp)

theorem writeback_spends {address : Word C} (loaded : Word C)
    (ha : address.width = g.addressBits) (hl : e.loaded.width = 8) (hd : e.difference.width = 8) :
    Spends GateStats.gates (writeback G d r address loaded e)
      (96 + g.addressBits, 115 + 2 * g.addressBits, 3) fun _ => True := by
  have chain := (result_spends G d e hl).bind fun result width =>
    (carry_spends G d r e).bind fun carry _ => (zero_spends G d r e hd width).bind fun zero _ =>
    (minus_spends G d r e).bind fun minus _ => (taken_spends G d zero minus).bind fun taken _ =>
    (G.selectWord_spends taken e.nextPc ha).bind fun pc _ =>
    (Spends.lift (x := r.ac.withLowBits result) (P := fun _ => True) fun _ _ => trivial).bind
      fun ac _ => Spends.pure
        (a := (⟨pc, ac, carry, zero, minus, loaded⟩ : EncryptedRegisters C))
        (P := fun _ => True) trivial
  apply chain.as
  simp only [Prod.add_def, Prod.fst_zero, Prod.snd_zero, Prod.mk.injEq]
  omega

/-- The gates of a cycle: two accesses, and the rest. -/
def gates (g : Geometry) : Nat × Nat × Nat :=
  (68 * g.capacity + 2 * 2 ^ g.colBits * (g.colBits - 1) + 2 * 2 ^ g.rowBits * (g.rowBits - 1) +
      3 * g.addressBits + 227,
    96 * g.capacity + 5 * g.addressBits + 234, 2 * g.addressBits + 19)

theorem run_spends (enumerates : schedule.Enumerates g.capacity) (hm : m.Sized g 16)
    (hr : r.Sized g) (one : Bit C) :
    Spends GateStats.gates (Cycle.run G schedule one r m) (gates g) fun _ => True := by
  have chain := (m.access_spends G enumerates hm r.pc one hr.ac hr.staging).metered.bind
      fun fetched ⟨_, hm⟩ =>
    (decode_spends G fetched.1.1).metered.bind fun decoded _ =>
    (memoryStage_spends G decoded.1 enumerates hm hr).metered.bind fun staged ⟨ha, _⟩ =>
    (execute_spends G decoded.1 hr one staged.1.2.1).metered.bind fun executed ⟨hl, hd⟩ =>
    (writeback_spends G decoded.1 r executed.1 staged.1.2.1 ha hl hd).metered.bind
      fun written _ =>
    Spends.pure
      (a := (written.1, staged.1.2.2, [⟨.fetch, fetched.2⟩, ⟨.decode, decoded.2⟩,
        ⟨.memory, staged.2⟩, ⟨.execute, executed.2⟩, (⟨.writeback, written.2⟩ : PhaseCost)]))
      (P := fun _ => True) trivial
  apply chain.as
  simp only [gates, Memory.accessGates, Prod.add_def, Prod.fst_zero, Prod.snd_zero,
    Prod.mk.injEq, Nat.mul_assoc]
  omega

end Cycle

end CipherMachine
