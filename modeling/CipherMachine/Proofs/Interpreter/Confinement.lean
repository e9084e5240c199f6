import CipherMachine.Proofs.Machine.Loading

set_option autoImplicit false

/-!
Confinement of the interpreter.

A program may compute any operand and any address and may overwrite itself. Still every address has
its upper bits masked off, and only the low byte of the accumulator ever changes, so a run stays in
its memory and leaves one high byte in every cell that it writes.
-/

namespace CipherMachine

def highByte (word : UInt16) : Nat := word.toNat / 2 ^ 8

theorem highByte_withLowByte (a : UInt16) (b : UInt8) :
    highByte (a &&& 0xFF00 ||| b.toUInt16) = highByte a := by
  have bound := b.toNat_lt
  unfold highByte
  rw [toNat_withLowByte]
  omega

namespace Geometry

theorem and_addressMask_le (g : Geometry) (a : UInt16) : a &&& g.addressMask ≤ g.addressMask := by
  have below : a.toNat % 2 ^ g.addressBits < 2 ^ g.addressBits := Nat.mod_lt _ (Nat.two_pow_pos _)
  rw [UInt16.le_iff_toNat_le, toNat_and_addressMask, g.toNat_addressMask]
  omega

theorem toNat_and_addressMask_lt (g : Geometry) (a : UInt16) :
    (a &&& g.addressMask).toNat < g.capacity := by
  rw [toNat_and_addressMask, g.capacity_eq]
  exact Nat.mod_lt _ (Nat.two_pow_pos _)

end Geometry

namespace Interpreter

def fetchIndex (it : Interpreter) : Nat := (it.registers.pc &&& it.geometry.addressMask).toNat

def fetched (it : Interpreter) : Instruction :=
  Instruction.decode (wordAt it.geometry it.memory it.registers.pc)

/-- The index of the cell at the effective address of the next step. -/
def target (it : Interpreter) : Nat :=
  (effectiveAddress it.geometry it.registers.ac it.fetched).toNat

theorem memory_step (it : Interpreter) :
    it.step.memory = if it.fetched.opcode? = some .store then
      it.memory.setIfInBounds it.target it.registers.ac else it.memory := by
  change (memoryStage _ _ _ _ _).1 = _
  unfold memoryStage
  rw [apply_ite Prod.fst]
  rfl

theorem nextRegisters_pc_le (g : Geometry) (r : Registers) (i : Instruction)
    {address : UInt16} (staging : UInt16) (within : address ≤ g.addressMask) :
    (nextRegisters g r i address staging).pc ≤ g.addressMask := by
  have either : ∀ taken : Bool,
      (if taken then address else (r.pc + 1) &&& g.addressMask) ≤ g.addressMask := by
    intro taken
    cases taken with
    | true => exact within
    | false => exact g.and_addressMask_le _
  exact either _

theorem pc_step_le (it : Interpreter) : it.step.registers.pc ≤ it.geometry.addressMask :=
  nextRegisters_pc_le it.geometry it.registers _ _ (it.geometry.and_addressMask_le _)

theorem highByte_ac_step (it : Interpreter) :
    highByte it.step.registers.ac = highByte it.registers.ac :=
  highByte_withLowByte it.registers.ac _

/-- What the next step touches: it fetches and accesses inside memory, and changes no cell but the
one at the effective address, where `store` leaves the accumulator. -/
structure StepConfined (it : Interpreter) : Prop where
  fetch : it.fetchIndex < it.memory.size
  access : it.target < it.memory.size
  changed : ∀ i, it.step.memory[i]? ≠ it.memory[i]? →
    it.fetched.opcode? = some .store ∧ i = it.target
  stored : it.fetched.opcode? = some .store → it.step.memory[it.target]? = some it.registers.ac

/-- What a run from `start` keeps. -/
structure Confined (start it : Interpreter) : Prop where
  geometry : it.geometry = start.geometry
  size : it.memory.size = it.geometry.capacity
  pc : it.registers.pc ≤ it.geometry.addressMask
  ac : highByte it.registers.ac = highByte start.registers.ac
  cells : ∀ i : Nat, it.memory[i]? = start.memory[i]? ∨
    ∃ word : UInt16, it.memory[i]? = some word ∧ highByte word = highByte start.registers.ac

variable {start it : Interpreter}

theorem Confined.stepConfined (confined : start.Confined it) : it.StepConfined := by
  have access : it.target < it.memory.size := by
    rw [confined.size]
    exact it.geometry.toNat_and_addressMask_lt _
  refine ⟨?_, access, ?_, ?_⟩
  · rw [confined.size]
    exact it.geometry.toNat_and_addressMask_lt _
  · intro i changed
    rw [memory_step] at changed
    by_cases stores : it.fetched.opcode? = some .store
    · rw [if_pos stores, Array.getElem?_setIfInBounds] at changed
      by_cases here : it.target = i
      · exact ⟨stores, here.symm⟩
      · rw [if_neg here] at changed
        contradiction
    · rw [if_neg stores] at changed
      contradiction
  · intro stores
    rw [memory_step, if_pos stores, Array.getElem?_setIfInBounds_self_of_lt access]

/-- A cell that a step changes gets the accumulator, whose high byte is the initial one. -/
theorem Confined.step (confined : start.Confined it) : start.Confined it.step := by
  have frame := confined.stepConfined
  refine ⟨confined.geometry, ?_, it.pc_step_le, it.highByte_ac_step.trans confined.ac, ?_⟩
  · rw [memory_step]
    split
    · rw [Array.size_setIfInBounds]
      exact confined.size
    · exact confined.size
  · intro i
    by_cases changed : it.step.memory[i]? = it.memory[i]?
    · rw [changed]
      exact confined.cells i
    · obtain ⟨stores, rfl⟩ := frame.changed i changed
      exact .inr ⟨_, frame.stored stores, confined.ac⟩

/-- The induction is on the steps: each of them leaves a confined state to the rest. -/
theorem Confined.run (confined : start.Confined it) (n : Nat) : start.Confined (it.run n) := by
  induction n generalizing it with
  | zero => exact confined
  | succ n ih => exact ih confined.step

/-- Whatever program an image that fits holds, its run is confined: after any number of steps the
program counter is an address, memory is as large as at the start, the accumulator has its initial
high byte, and every cell has it too or its own initial value; and the next step touches memory at
its two addresses only. -/
theorem run_confined {g : Geometry} {image : Image} (fits : image.checkFits g = .ok ()) :
    ∃ start, load g image = .ok start ∧ start.geometry = g ∧
      start.memory.toList = image.words.rightpad g.capacity 0 ∧ start.registers.ac = image.ac ∧
      ∀ n, start.Confined (start.run n) ∧ (start.run n).StepConfined := by
  refine ⟨_, load_eq_ok fits, rfl, rfl, rfl, fun n => ?_⟩
  have ⟨words, pc⟩ := (image.checkFits_eq_ok g).mp fits
  have start : Confined ⟨g, (image.words.rightpad g.capacity 0).toArray,
      .initial image.pc image.ac, 0⟩ ⟨g, (image.words.rightpad g.capacity 0).toArray,
      .initial image.pc image.ac, 0⟩ := by
    refine ⟨rfl, ?_, ?_, rfl, fun _ => .inl rfl⟩
    · rw [List.size_toArray, List.length_rightpad]
      exact Nat.max_eq_left words
    · change image.pc ≤ g.addressMask
      have below := toNat_lt_of_and_not_addressMask pc
      rw [UInt16.le_iff_toNat_le, g.toNat_addressMask]
      omega
  exact ⟨start.run n, (start.run n).stepConfined⟩

/-- A program that stores its accumulator into the cell after it and runs into that. -/
theorem run_confined_store : ∃ start,
    load ⟨1, 1, by decide, by decide, by decide⟩ ⟨0, 0xAB01, [0x0F01]⟩ = .ok start ∧
      (start.run 1).memory = #[0x0F01, 0xAB01, 0, 0] ∧
      ∀ n, start.Confined (start.run n) ∧ (start.run n).StepConfined := by
  have fits : Image.checkFits ⟨0, 0xAB01, [0x0F01]⟩
      (⟨1, 1, by decide, by decide, by decide⟩ : Geometry) = .ok () := by decide
  obtain ⟨start, loaded, _, _, _, confined⟩ := run_confined fits
  refine ⟨start, loaded, ?_, confined⟩
  obtain rfl := Except.ok.inj ((load_eq_ok fits).symm.trans loaded)
  decide

end Interpreter

end CipherMachine
