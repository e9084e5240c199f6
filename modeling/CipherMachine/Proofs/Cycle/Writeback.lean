import CipherMachine.Proofs.Cycle.Execute

set_option autoImplicit false

/-!
The write-back chooses by the selectors what the interpreter chooses by the operation.

At most one selector is set, so a sum of masked candidates is the selected one. `chosen` lists the
candidates of the result byte with their conditions.
-/

namespace CipherMachine

open GateM

def Opcode.keeping : List Opcode := [.store, .clc, .sec, .beq, .jmp, .bmi, .cmp]

def Opcode.carrying : List Opcode := [.add, .rol, .ror, .clc, .sec]

/-- Whether an operation is one of those listed, as the sum of its selectors. -/
def selectedBy (op : Option Opcode) (ops : List Opcode) : Bool :=
  parity (ops.map fun candidate => decide (op = some candidate))

/-- The candidates of the result byte, each with the condition under which it is selected. -/
def chosen (op : Option Opcode) (a b operand loaded : UInt8) (carry : Bool) : List (Bool × Nat) :=
  [(decide (op = some .load), loaded.toNat), (decide (op = some .la), operand.toNat),
    (decide (op = some .rol), (a <<< 1 ||| carry.toUInt8).toNat),
    (decide (op = some .ror), (a >>> 1 ||| carry.toUInt8 <<< 7).toNat),
    (decide (op = some .add), (a.toUInt16 + b.toUInt16 + carry.toUInt16).toUInt8.toNat),
    (decide (op = some .xor), (a ^^^ b).toNat), (decide (op = some .and), (a &&& b).toNat),
    (decide (op = some .or), (a ||| b).toNat), (selectedBy op Opcode.keeping, a.toNat)]

theorem selectedSum_chosen (op : Option Opcode) (a b operand loaded : UInt8) (carry : Bool) :
    selectedSum (chosen op a b operand loaded carry) =
      (Interpreter.result op a b operand loaded carry).1.toNat := by
  cases op with
  | none => simp [chosen, selectedSum, selectedBy, Opcode.keeping, Interpreter.result]
  | some op =>
      cases op <;> simp [chosen, selectedSum, selectedBy, Opcode.keeping, Interpreter.result]

/-- The carry flag as the write-back computes it: what the selected operation puts into it, or
the old flag if none does. -/
theorem parity_carry (op : Option Opcode) (a b operand loaded : UInt8) (carry : Bool) :
    parity [decide (op = some .add) && decide (0xFF < a.toUInt16 + b.toUInt16 + carry.toUInt16),
      decide (op = some .rol) && decide (0x80 ≤ a), decide (op = some .ror) && (a % 2 == 1),
      decide (op = some .sec), !selectedBy op Opcode.carrying && carry] =
      (Interpreter.result op a b operand loaded carry).2 := by
  cases op with
  | none => simp [selectedBy, Opcode.carrying, Interpreter.result]
  | some op => cases op <;> simp [selectedBy, Opcode.carrying, Interpreter.result]

theorem select_zero (op : Option Opcode) (result difference : UInt8) (zero minus : Bool) :
    (if decide (op = some .cmp) then decide (difference.toNat % 2 ^ 8 = 0)
      else decide (result.toNat % 2 ^ 8 = 0) ||
        ((decide (op = some .beq) ^^ decide (op = some .bmi)) && zero)) =
      (Interpreter.flags op result difference zero minus).1 := by
  have is_zero : ∀ n : UInt8, decide (n.toNat % 2 ^ 8 = 0) = (n == 0) := by
    intro n
    rw [Nat.mod_eq_of_lt n.toNat_lt, Bool.eq_iff_iff, decide_eq_true_eq, beq_iff_eq,
      ← UInt8.toNat_inj]
    rfl
  rw [is_zero, is_zero]
  cases op with
  | none => simp [Interpreter.flags]
  | some op => cases op <;> simp [Interpreter.flags]

theorem select_minus (op : Option Opcode) (result difference : UInt8) (zero minus : Bool) :
    (if decide (op = some .cmp) then difference.toNat.testBit 7 else minus) =
      (Interpreter.flags op result difference zero minus).2 := by
  rw [← sign_eq_testBit]
  by_cases compares : op = some .cmp <;> simp [Interpreter.flags, compares]

theorem parity_branches (op : Option Opcode) (zero minus : Bool) :
    parity [decide (op = some .jmp), decide (op = some .bmi) && minus,
      decide (op = some .beq) && zero] = Interpreter.branches op zero minus := by
  cases op with
  | none => simp [Interpreter.branches]
  | some op => cases op <;> cases zero <;> cases minus <;> rfl

variable {C S : Type} {G : Gates C S} {reads : Bit C → Bool → Prop} {dry : S → Prop}
  {d : Decoded C} {i : Instruction} {e : Candidates C} {a b loaded : UInt8} {carry : Bool}
  {r : EncryptedRegisters C} {g : Geometry} {p : Registers}

namespace Cycle

theorem result_yields (hom : G.Homomorphic reads dry) (decoded : d.Shows reads i)
    (candidates : e.Shows reads a b loaded carry) :
    (result G d e).Yields dry (·.Holds reads 8
      (Interpreter.result i.opcode? a b i.operand loaded carry).1.toNat) := by
  refine (decoded.selector .store).bind fun store hstore => ?_
  refine (decoded.selector .clc).bind fun clc hclc => ?_
  refine (decoded.selector .sec).bind fun sec hsec => ?_
  refine (decoded.selector .beq).bind fun beq hbeq => ?_
  refine (decoded.selector .jmp).bind fun jmp hjmp => ?_
  refine (decoded.selector .bmi).bind fun bmi hbmi => ?_
  refine (decoded.selector .cmp).bind fun cmp hcmp => ?_
  have kept : List.Forall₂ reads [store, clc, sec, beq, jmp, bmi, cmp]
      (Opcode.keeping.map fun op => decide (i.opcode? = some op)) :=
    .cons hstore (.cons hclc (.cons hsec (.cons hbeq (.cons hjmp (.cons hbmi (.cons hcmp .nil))))))
  refine (hom.xorAll kept (by simp [Opcode.keeping])).bind fun keep hkeep => ?_
  refine (decoded.selector .load).bind fun load hload => ?_
  refine (decoded.selector .la).bind fun la hla => ?_
  refine (decoded.selector .rol).bind fun rol hrol => ?_
  refine (decoded.selector .ror).bind fun ror hror => ?_
  refine (decoded.selector .add).bind fun add hadd => ?_
  refine (decoded.selector .xor).bind fun xor hxor => ?_
  refine (decoded.selector .and).bind fun and hand => ?_
  refine (decoded.selector .or).bind fun or hor => ?_
  rw [← selectedSum_chosen]
  apply hom.mux
  · exact List.cons_ne_nil _ _
  · exact .cons ⟨hload, candidates.loaded⟩ <| .cons ⟨hla, decoded.operand⟩ <|
      .cons ⟨hrol, candidates.left⟩ <| .cons ⟨hror, candidates.right⟩ <|
      .cons ⟨hadd, candidates.sum⟩ <| .cons ⟨hxor, candidates.xor⟩ <|
      .cons ⟨hand, candidates.and⟩ <| .cons ⟨hor, candidates.or⟩ <|
      .cons ⟨hkeep, candidates.low⟩ .nil

theorem carry_yields (hom : G.Homomorphic reads dry) (decoded : d.Shows reads i)
    (candidates : e.Shows reads a b loaded carry) (hc : reads r.carry carry) :
    (Cycle.carry G d r e).Yields dry
      (reads · (Interpreter.result i.opcode? a b i.operand loaded carry).2) := by
  refine (decoded.selector .add).bind fun add hadd => ?_
  refine (decoded.selector .rol).bind fun rol hrol => ?_
  refine (decoded.selector .ror).bind fun ror hror => ?_
  refine (decoded.selector .sec).bind fun sec hsec => ?_
  refine (decoded.selector .clc).bind fun clc hclc => ?_
  have writing : List.Forall₂ reads [add, rol, ror, clc, sec]
      (Opcode.carrying.map fun op => decide (i.opcode? = some op)) :=
    .cons hadd (.cons hrol (.cons hror (.cons hclc (.cons hsec .nil))))
  refine (hom.xorAll writing (by simp [Opcode.carrying])).bind fun written hwritten => ?_
  refine (hom.and hadd candidates.sumCarry).bind fun fromAdd hfromAdd => ?_
  refine (hom.and hrol candidates.leftCarry).bind fun fromLeft hfromLeft => ?_
  refine (hom.and hror candidates.rightCarry).bind fun fromRight hfromRight => ?_
  refine (hom.not hwritten).bind fun idle hidle => ?_
  refine (hom.and hidle hc).bind fun kept hkept => ?_
  rw [← parity_carry]
  apply hom.xorAll
  · exact .cons hfromAdd (.cons hfromLeft (.cons hfromRight (.cons hsec (.cons hkept .nil))))
  · exact List.cons_ne_nil _ _

theorem zero_yields (hom : G.Homomorphic reads dry) (decoded : d.Shows reads i)
    (candidates : e.Shows reads a b loaded carry) {zero : Bool} (hz : reads r.zero zero)
    {word : Word C} {result : UInt8} (hw : word.Holds reads 8 result.toNat) (minus : Bool) :
    (Cycle.zero G d r e word).Yields dry
      (reads · (Interpreter.flags i.opcode? result (a - b) zero minus).1) := by
  refine (decoded.selector .beq).bind fun beq hbeq => ?_
  refine (decoded.selector .bmi).bind fun bmi hbmi => ?_
  refine (hom.xor hbeq hbmi).bind fun branch hbranch => ?_
  refine (hom.and hbranch hz).bind fun held hheld => ?_
  refine (hom.isZero candidates.difference (by decide)).bind fun equal hequal => ?_
  refine (hom.isZero hw (by decide)).bind fun cleared hcleared => ?_
  refine (hom.or hcleared hheld).bind fun other hother => ?_
  refine (decoded.selector .cmp).bind fun cmp hcmp => ?_
  rw [← select_zero]
  exact hom.select hcmp hequal hother

theorem minus_yields (hom : G.Homomorphic reads dry) (decoded : d.Shows reads i)
    (candidates : e.Shows reads a b loaded carry) {minus : Bool} (hm : reads r.minus minus)
    (result : UInt8) (zero : Bool) :
    (Cycle.minus G d r e).Yields dry
      (reads · (Interpreter.flags i.opcode? result (a - b) zero minus).2) := by
  refine (decoded.selector .cmp).bind fun cmp hcmp => ?_
  refine (candidates.difference.bit (i := 7) (by decide)).bind fun sign hsign => ?_
  rw [← select_minus]
  exact hom.select hcmp hsign hm

theorem taken_yields (hom : G.Homomorphic reads dry) (decoded : d.Shows reads i)
    {zero minus : Bit C} {z m : Bool} (hz : reads zero z) (hm : reads minus m) :
    (taken G d zero minus).Yields dry (reads · (Interpreter.branches i.opcode? z m)) := by
  refine (decoded.selector .bmi).bind fun bmi hbmi => ?_
  refine (hom.and hbmi hm).bind fun onMinus honMinus => ?_
  refine (decoded.selector .beq).bind fun beq hbeq => ?_
  refine (hom.and hbeq hz).bind fun onZero honZero => ?_
  refine (decoded.selector .jmp).bind fun jmp hjmp => ?_
  rw [← parity_branches]
  apply hom.xorAll
  · exact .cons hjmp (.cons honMinus (.cons honZero .nil))
  · exact List.cons_ne_nil _ _

private theorem nextRegisters_pc (g : Geometry) (p : Registers) (i : Instruction)
    (address staging : UInt16) :
    (Interpreter.nextRegisters g p i address staging).pc =
      if Interpreter.branches i.opcode? (Interpreter.nextRegisters g p i address staging).zero
        (Interpreter.nextRegisters g p i address staging).minus
      then address else (p.pc + 1) &&& g.addressMask := rfl

private theorem toNat_nextPc (g : Geometry) (p : Registers) (i : Instruction)
    (address staging : UInt16) :
    (Interpreter.nextRegisters g p i address staging).pc.toNat =
      if Interpreter.branches i.opcode? (Interpreter.nextRegisters g p i address staging).zero
        (Interpreter.nextRegisters g p i address staging).minus
      then address.toNat else (p.pc.toNat + 1) % 2 ^ g.addressBits := by
  have wraps : (p.pc.toNat + 1) % 2 ^ 16 % 2 ^ g.addressBits =
      (p.pc.toNat + 1) % 2 ^ g.addressBits :=
    Nat.mod_mod_of_dvd _ (Nat.pow_dvd_pow 2 (Nat.le_trans g.addressBits_le (by decide)))
  rw [nextRegisters_pc, apply_ite UInt16.toNat, toNat_and_addressMask, UInt16.toNat_add]
  change (if _ then _ else (p.pc.toNat + 1) % 2 ^ 16 % _) = _
  rw [wraps]

private theorem toNat_nextAc (g : Geometry) (p : Registers) (i : Instruction)
    (address staging : UInt16) :
    (Interpreter.nextRegisters g p i address staging).ac.toNat =
      (Interpreter.result i.opcode? p.ac.toUInt8
        (if i.indirect then staging.toUInt8 else i.operand) i.operand staging.toUInt8
        p.carry).1.toNat + 2 ^ 8 * (p.ac.toNat / 2 ^ 8) :=
  toNat_withLowByte _ _

/-- The new register file is the interpreter's. -/
theorem writeback_yields (hom : G.Homomorphic reads dry) (decoded : d.Shows reads i)
    (registers : r.Shows reads g p) {address staging : UInt16} {addressWord word : Word C}
    (below : address.toNat < 2 ^ g.addressBits)
    (ha : addressWord.Holds reads g.addressBits address.toNat)
    (hw : word.Holds reads 16 staging.toNat)
    (candidates : e.Shows reads p.ac.toUInt8
      (if i.indirect then staging.toUInt8 else i.operand) staging.toUInt8 p.carry)
    (hn : e.nextPc.Holds reads g.addressBits (p.pc.toNat + 1)) :
    (writeback G d r addressWord word e).Yields dry
      (·.Shows reads g (Interpreter.nextRegisters g p i address staging)) := by
  refine (result_yields hom decoded candidates).bind fun result hresult => ?_
  refine (carry_yields hom decoded candidates registers.carry).bind fun carry hcarry => ?_
  let next := Interpreter.nextRegisters g p i address staging
  have zeroed : (Cycle.zero G d r e result).Yields dry (reads · next.zero) :=
    zero_yields hom decoded candidates registers.zero hresult p.minus
  have signed : (Cycle.minus G d r e).Yields dry (reads · next.minus) :=
    minus_yields hom decoded candidates registers.minus _ p.zero
  refine zeroed.bind fun zero hzero => ?_
  refine signed.bind fun minus hminus => ?_
  refine (taken_yields hom decoded hzero hminus).bind fun taken htaken => ?_
  refine (hom.selectWord htaken ha hn).bind fun pc hpc => ?_
  refine (registers.ac.withLowBits hresult (by decide)).bind fun ac hac => ?_
  refine .pure ⟨?_, ?_, ?_, hcarry, hzero, hminus, hw⟩
  · apply hpc.congr
    rw [toNat_nextPc]
    split
    · rfl
    · exact (Nat.mod_mod _ _).symm
  · rw [toNat_nextPc]
    split
    · exact below
    · exact Nat.mod_lt _ (Nat.two_pow_pos _)
  · rw [Nat.mod_eq_of_lt (UInt8.toNat_lt _)] at hac
    rw [toNat_nextAc]
    exact hac

end Cycle

end CipherMachine
