import CipherMachine.Proofs.Interpreter.Confinement

set_option autoImplicit false

/-!
Chains of branches on flags.

A comparison leaves its verdict in the zero and minus flags. A branch on one of them recomputes the
zero flag from the accumulator but keeps one that is set, so a program may branch on one comparison
as often as it likes, wherever the branches lead.
-/

namespace CipherMachine

theorem withLowByte_toUInt8 (a : UInt16) : a &&& 0xFF00 ||| a.toUInt8.toUInt16 = a := by
  rw [← UInt16.toNat_inj, toNat_withLowByte, UInt16.toNat_toUInt8]
  omega

theorem toUInt8_withLowByte (a : UInt16) (b : UInt8) :
    (a &&& 0xFF00 ||| b.toUInt16).toUInt8 = b := by
  have bound := b.toNat_lt
  rw [← UInt8.toNat_inj, UInt16.toNat_toUInt8, toNat_withLowByte]
  omega

theorem difference_eq_zero (a b : UInt8) : a - b = 0 ↔ a = b := by
  have bounds := And.intro a.toNat_lt b.toNat_lt
  rw [← UInt8.toNat_inj, ← UInt8.toNat_inj, toNat_difference]
  change _ = 0 ↔ _
  omega

namespace Interpreter

def address (it : Interpreter) : UInt16 :=
  effectiveAddress it.geometry it.registers.ac it.fetched

/-- The numbers that a comparison in the next step compares: the low byte of the accumulator, and
the operand or, if the accumulator addresses memory, the low byte of the word there. -/
def compared (it : Interpreter) : UInt8 × UInt8 :=
  (it.registers.ac.toUInt8,
    if it.fetched.indirect then (wordAt it.geometry it.memory it.address).toUInt8
    else it.fetched.operand)

def taken (it : Interpreter) : Bool :=
  branches it.fetched.opcode? it.step.registers.zero it.step.registers.minus

/-- A step continues at its effective address if it branches, and at the next address if not. -/
theorem pc_step (it : Interpreter) : it.step.registers.pc =
    if it.taken then it.address else (it.registers.pc + 1) &&& it.geometry.addressMask := rfl

theorem staging_step (it : Interpreter) : it.step.registers.staging =
    if it.fetched.opcode? = some .store then it.registers.staging
    else wordAt it.geometry it.memory it.address := by
  change (memoryStage _ _ _ _ _).2 = _
  unfold memoryStage
  rw [apply_ite Prod.snd]
  rfl

/-- The flags are set from the accumulator that the step leaves and from the numbers compared. -/
theorem flags_step (it : Interpreter) : (it.step.registers.zero, it.step.registers.minus) =
    flags it.fetched.opcode? it.step.registers.ac.toUInt8 (it.compared.1 - it.compared.2)
      it.registers.zero it.registers.minus := by
  have set : (it.step.registers.zero, it.step.registers.minus) = flags it.fetched.opcode? _
      (it.registers.ac.toUInt8 - if it.fetched.indirect then it.step.registers.staging.toUInt8
        else it.fetched.operand) it.registers.zero it.registers.minus := rfl
  have left : it.step.registers.ac.toUInt8 = _ := toUInt8_withLowByte it.registers.ac _
  rw [set, left, compared, staging_step]
  by_cases store : it.fetched.opcode? = some .store
  · simp [store, flags]
  · rw [if_neg store]

theorem ac_step_of_branch (it : Interpreter) {op : Opcode} (fetched : it.fetched.opcode? = some op)
    (branch : op = .beq ∨ op = .bmi) :
    it.step.registers.ac = it.registers.ac ∧ it.step.registers.carry = it.registers.carry := by
  have ac : it.step.registers.ac = it.registers.ac &&& 0xFF00 ||| (result it.fetched.opcode?
      it.registers.ac.toUInt8 _ _ _ it.registers.carry).1.toUInt16 := rfl
  have carry : it.step.registers.carry = (result it.fetched.opcode?
      it.registers.ac.toUInt8 _ _ _ it.registers.carry).2 := rfl
  rw [fetched] at ac carry
  rcases branch with rfl | rfl
  all_goals exact ⟨ac.trans (withLowByte_toUInt8 _), carry⟩

def AtFlagBranch (it : Interpreter) : Prop :=
  it.fetched.opcode? = some .beq ∨ it.fetched.opcode? = some .bmi

instance (it : Interpreter) : Decidable it.AtFlagBranch :=
  inferInstanceAs (Decidable (_ ∨ _))

/-- What branches on flags leave, from one state to a later one: only the zero flag has changed,
and is set if the low byte of the accumulator is zero. -/
structure BranchedFrom (start it : Interpreter) : Prop where
  memory : it.memory = start.memory
  ac : it.registers.ac = start.registers.ac
  carry : it.registers.carry = start.registers.carry
  minus : it.registers.minus = start.registers.minus
  zero : it.registers.zero = (start.registers.zero || start.registers.ac.toUInt8 == 0)

variable {start it : Interpreter}

theorem AtFlagBranch.step (branch : it.AtFlagBranch) : it.BranchedFrom it.step := by
  obtain ⟨op, fetched, either⟩ : ∃ op, it.fetched.opcode? = some op ∧ (op = .beq ∨ op = .bmi) := by
    rcases branch with beq | bmi
    · exact ⟨_, beq, .inl rfl⟩
    · exact ⟨_, bmi, .inr rfl⟩
  have kept := it.ac_step_of_branch fetched either
  have joined : ∀ r d z m, flags (some op) r d z m = (z || r == 0, m) := by
    intro r d z m
    rcases either with rfl | rfl <;> simp [flags, Bool.or_comm]
  have set := it.flags_step
  rw [fetched, kept.1, joined] at set
  obtain ⟨zero, minus⟩ := Prod.mk.inj set
  refine ⟨?_, kept.1, kept.2, minus, zero⟩
  rw [memory_step, fetched]
  rcases either with rfl | rfl <;> rfl

/-- One more branch: what has joined the zero flag joins it again. -/
theorem BranchedFrom.step (branched : start.BranchedFrom it) (branch : it.AtFlagBranch) :
    start.BranchedFrom it.step := by
  have next := branch.step
  refine ⟨next.memory.trans branched.memory, next.ac.trans branched.ac,
    next.carry.trans branched.carry, next.minus.trans branched.minus, ?_⟩
  rw [next.zero, branched.zero, branched.ac, Bool.or_assoc, Bool.or_self]

/-- The induction is on the branches behind the first one. -/
theorem branchedFrom_run (it : Interpreter) {k : Nat} (positive : 0 < k)
    (chain : ∀ i < k, (it.run i).AtFlagBranch) : it.BranchedFrom (it.run k) := by
  induction k, positive using Nat.le_induction with
  | base => exact (chain 0 Nat.one_pos).step
  | succ k _ ih =>
      rw [run_succ]
      have before := ih fun i below => chain i (Nat.lt_succ_of_lt below)
      exact before.step (chain k k.lt_succ_self)

theorem zero_step_of_cmp (cmp : it.fetched.opcode? = some .cmp) :
    it.step.registers.zero = true ↔ it.compared.1 = it.compared.2 := by
  have set := it.flags_step
  rw [cmp] at set
  have zero : it.step.registers.zero = (it.compared.1 - it.compared.2 == 0) := (Prod.mk.inj set).1
  rw [zero, beq_iff_eq, difference_eq_zero]

theorem branches_beq (zero minus : Bool) : branches (some .beq) zero minus = zero := by
  cases zero <;> cases minus <;> rfl

theorem branches_bmi (zero minus : Bool) : branches (some .bmi) zero minus = minus := by
  cases zero <;> cases minus <;> rfl

/-- Branches on flags leave everything but the zero flag, which is set after any number of them if
it was before or the low byte of the accumulator is zero. So wherever such branches lead behind a
comparison, each branch on zero is taken if and only if the compared numbers were equal or that byte
is zero, and each branch on minus if and only if the comparison has set the minus flag. -/
theorem branches_keep_comparison (it : Interpreter) :
    (∀ k, 0 < k → (∀ i < k, (it.run i).AtFlagBranch) →
      (it.run k).memory = it.memory ∧ (it.run k).registers.ac = it.registers.ac ∧
      (it.run k).registers.carry = it.registers.carry ∧
      (it.run k).registers.minus = it.registers.minus ∧
      ((it.run k).registers.zero = true ↔
        it.registers.zero = true ∨ it.registers.ac.toUInt8 = 0)) ∧
    (it.fetched.opcode? = some .cmp → ∀ k, (∀ i < k, (it.step.run i).AtFlagBranch) → ∀ i < k,
      let branch := it.step.run i
      branch.step.registers.pc = (if branch.taken then branch.address
        else (branch.registers.pc + 1) &&& branch.geometry.addressMask) ∧
      (branch.fetched.opcode? = some .beq → (branch.taken = true ↔
        it.compared.1 = it.compared.2 ∨ branch.registers.ac.toUInt8 = 0)) ∧
      (branch.fetched.opcode? = some .bmi → (branch.taken = true ↔
        it.step.registers.minus = true))) := by
  constructor
  · intro k positive chain
    have branched := it.branchedFrom_run positive chain
    refine ⟨branched.memory, branched.ac, branched.carry, branched.minus, ?_⟩
    simp [branched.zero]
  · intro cmp k chain i below branch
    have flagged : it.step.BranchedFrom branch.step := by
      have through := it.step.branchedFrom_run i.succ_pos fun j before =>
        chain j (Nat.lt_of_lt_of_le before below)
      rwa [run_succ] at through
    have ac := (chain i below).step.ac.symm.trans flagged.ac
    refine ⟨branch.pc_step, ?_, ?_⟩
    · intro beq
      have taken : branch.taken = branch.step.registers.zero := by
        rw [Interpreter.taken, beq, branches_beq]
      rw [taken, flagged.zero, ac, Bool.or_eq_true, zero_step_of_cmp cmp, beq_iff_eq]
    · intro bmi
      have taken : branch.taken = branch.step.registers.minus := by
        rw [Interpreter.taken, bmi, branches_bmi]
      rw [taken, flagged.minus]

/-- A comparison of equal numbers, before branches that go round: one on minus, which is not taken,
and two on zero, of which the first goes through the accumulator. -/
theorem branches_keep_comparison_loop :
    let it : Interpreter := ⟨⟨1, 1, by decide, by decide, by decide⟩,
      #[0x0103, 0x0200, 0x1500, 0x0501], .initial 0 0xAB03, 0⟩
    it.fetched.opcode? = some .cmp ∧ (∀ i < 4, (it.step.run i).AtFlagBranch) ∧
      (it.step.run 4).memory = it.step.memory ∧ (it.step.run 4).registers.zero = true ∧
      (it.step.run 0).taken = false ∧ (it.step.run 1).taken = true ∧
      (it.step.run 2).taken = true := by
  intro it
  have cmp : it.fetched.opcode? = some .cmp := by decide
  have chain : ∀ i < 4, (it.step.run i).AtFlagBranch := by decide
  obtain ⟨memory, _, _, _, zero⟩ := (branches_keep_comparison it.step).1 4 (by decide) chain
  have branch := (branches_keep_comparison it).2 cmp 4 chain
  have first := (branch 0 (by decide)).2.2 (by decide)
  have second := (branch 1 (by decide)).2.1 (by decide)
  have third := (branch 2 (by decide)).2.1 (by decide)
  refine ⟨cmp, chain, memory, zero.mpr (by decide), ?_, second.mpr (by decide),
    third.mpr (by decide)⟩
  rw [← Bool.not_eq_true, first]
  decide

end Interpreter

end CipherMachine
