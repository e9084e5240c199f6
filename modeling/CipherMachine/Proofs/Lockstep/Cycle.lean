import CipherMachine.Cycle
import CipherMachine.Proofs.Lockstep.Memory

set_option autoImplicit false

/-!
Cycles of machines whose state is alike run in lockstep.
-/

namespace CipherMachine

open GateM

variable {C S : Type} {G : Gates C S} {Q : Session S → Session S → Prop}

structure EncryptedRegisters.Alike (r r' : EncryptedRegisters C) : Prop where
  pc : Word.Alike r.pc r'.pc
  ac : Word.Alike r.ac r'.ac
  carry : Bit.Alike r.carry r'.carry
  zero : Bit.Alike r.zero r'.zero
  minus : Bit.Alike r.minus r'.minus
  staging : Word.Alike r.staging r'.staging

structure Decoded.Alike (d d' : Decoded C) : Prop where
  selectors : List.Forall₂ Bit.Alike d.selectors d'.selectors
  indirect : Bit.Alike d.indirect d'.indirect
  operand : Word.Alike d.operand d'.operand

structure Candidates.Alike (e e' : Candidates C) : Prop where
  low : Word.Alike e.low e'.low
  loaded : Word.Alike e.loaded e'.loaded
  left : Gates.InStep.Sum e.left e'.left
  right : Gates.InStep.Sum e.right e'.right
  sum : Gates.InStep.Sum e.sum e'.sum
  xor : Word.Alike e.xor e'.xor
  and : Word.Alike e.and e'.and
  or : Word.Alike e.or e'.or
  difference : Word.Alike e.difference e'.difference
  nextPc : Word.Alike e.nextPc e'.nextPc

variable {d d' : Decoded C} {e e' : Candidates C} {r r' : EncryptedRegisters C} {m m' : Memory C}
  {one one' : Bit C} {schedule : Schedule}

theorem Decoded.Alike.selector (alike : d.Alike d') (op : Opcode) :
    Lockstep Q (liftM (d.selector op) : GateM S (Bit C)) (liftM (d'.selector op)) Bit.Alike :=
  Word.Alike.bit (v := ⟨d.selectors⟩) (w := ⟨d'.selectors⟩) alike.selectors _

namespace Cycle

theorem fetch_lockstep (step : G.InStep Q) (ho : one.Alike one') (hr : r.Alike r')
    (hm : m.Alike m') :
    Lockstep Q (fetch G schedule one r m) (fetch G schedule one' r' m') fun answer answer' =>
      answer.1.Alike answer'.1 ∧ answer.2.Alike answer'.2 :=
  Memory.access_lockstep step schedule hm hr.pc hr.ac ho hr.staging

theorem decode_lockstep (step : G.InStep Q) {instruction instruction' : Word C}
    (hi : instruction.Alike instruction') :
    Lockstep Q (decode G instruction) (decode G instruction') Decoded.Alike := by
  refine (hi.slice 8 12).bind fun _ _ nibble => ?_
  refine (step.matchPatterns _ nibble).bind fun _ _ selectors => ?_
  refine (hi.bit 12).bind fun _ _ indirect => ?_
  exact (hi.slice 0 8).bind fun _ _ operand => .pure ⟨selectors, indirect, operand⟩

theorem memoryStage_lockstep (step : G.InStep Q) (hd : d.Alike d') (hr : r.Alike r')
    (hm : m.Alike m') :
    Lockstep Q (memoryStage G schedule d r m) (memoryStage G schedule d' r' m')
      fun answer answer' => answer.1.Alike answer'.1 ∧ answer.2.1.Alike answer'.2.1 ∧
        answer.2.2.Alike answer'.2.2 := by
  unfold memoryStage
  rw [hr.pc.width_eq]
  refine (hr.ac.slice 0 _).bind fun _ _ accumulator => ?_
  refine (hd.operand.slice 0 _).bind fun _ _ operand => ?_
  refine (step.selectWord hd.indirect accumulator operand).bind fun _ _ address => ?_
  refine (hd.selector .store).bind fun _ _ store => ?_
  refine (step.not store).bind fun _ _ read => ?_
  exact (Memory.access_lockstep step schedule hm address hr.ac read hr.staging).bind
    fun _ _ answer => .pure ⟨address, answer.1, answer.2⟩

theorem execute_lockstep (step : G.InStep Q) (ho : one.Alike one') (hd : d.Alike d')
    (hr : r.Alike r') {loaded loaded' : Word C} (hl : loaded.Alike loaded') :
    Lockstep Q (execute G one d r loaded) (execute G one' d' r' loaded') Candidates.Alike := by
  refine (hr.ac.slice 0 8).bind fun _ _ a => ?_
  refine (hl.slice 0 8).bind fun _ _ loaded => ?_
  refine (step.selectWord hd.indirect loaded hd.operand).bind fun _ _ b => ?_
  refine (step.add a b hr.carry).bind fun _ _ sum => ?_
  refine (zipWord_lockstep step.xor a b).bind fun _ _ xor => ?_
  refine (zipWord_lockstep step.and a b).bind fun _ _ and => ?_
  refine (zipWord_lockstep step.or a b).bind fun _ _ or => ?_
  refine (step.notWord b).bind fun _ _ complement => ?_
  refine (step.add a complement ho).bind fun _ _ difference => ?_
  refine (step.increment hr.pc).bind fun _ _ nextPc => .pure ?_
  exact ⟨a, loaded, a.rotateLeft hr.carry, a.rotateRight hr.carry, sum, xor, and, or,
    difference.1, nextPc⟩

theorem result_lockstep (step : G.InStep Q) (hd : d.Alike d') (he : e.Alike e') :
    Lockstep Q (result G d e) (result G d' e') Word.Alike := by
  refine (hd.selector .store).bind fun _ _ store => ?_
  refine (hd.selector .clc).bind fun _ _ clc => ?_
  refine (hd.selector .sec).bind fun _ _ sec => ?_
  refine (hd.selector .beq).bind fun _ _ beq => ?_
  refine (hd.selector .jmp).bind fun _ _ jmp => ?_
  refine (hd.selector .bmi).bind fun _ _ bmi => ?_
  refine (hd.selector .cmp).bind fun _ _ cmp => ?_
  refine (step.xorAll <| .cons store <| .cons clc <| .cons sec <| .cons beq <| .cons jmp <|
    .cons bmi <| .cons cmp .nil).bind fun _ _ keep => ?_
  refine (hd.selector .load).bind fun _ _ load => ?_
  refine (hd.selector .la).bind fun _ _ la => ?_
  refine (hd.selector .rol).bind fun _ _ rol => ?_
  refine (hd.selector .ror).bind fun _ _ ror => ?_
  refine (hd.selector .add).bind fun _ _ add => ?_
  refine (hd.selector .xor).bind fun _ _ xor => ?_
  refine (hd.selector .and).bind fun _ _ and => ?_
  refine (hd.selector .or).bind fun _ _ or => ?_
  exact step.mux <| .cons ⟨load, he.loaded⟩ <| .cons ⟨la, hd.operand⟩ <|
    .cons ⟨rol, he.left.1⟩ <| .cons ⟨ror, he.right.1⟩ <| .cons ⟨add, he.sum.1⟩ <|
    .cons ⟨xor, he.xor⟩ <| .cons ⟨and, he.and⟩ <| .cons ⟨or, he.or⟩ <| .cons ⟨keep, he.low⟩ .nil

theorem carry_lockstep (step : G.InStep Q) (hd : d.Alike d') (hr : r.Alike r') (he : e.Alike e') :
    Lockstep Q (Cycle.carry G d r e) (Cycle.carry G d' r' e') Bit.Alike := by
  refine (hd.selector .add).bind fun _ _ add => ?_
  refine (hd.selector .rol).bind fun _ _ rol => ?_
  refine (hd.selector .ror).bind fun _ _ ror => ?_
  refine (hd.selector .sec).bind fun _ _ sec => ?_
  refine (hd.selector .clc).bind fun _ _ clc => ?_
  refine (step.xorAll <| .cons add <| .cons rol <| .cons ror <| .cons clc <|
    .cons sec .nil).bind fun _ _ written => ?_
  refine (step.and add he.sum.2).bind fun _ _ fromAdd => ?_
  refine (step.and rol he.left.2).bind fun _ _ fromLeft => ?_
  refine (step.and ror he.right.2).bind fun _ _ fromRight => ?_
  refine (step.not written).bind fun _ _ idle => ?_
  refine (step.and idle hr.carry).bind fun _ _ kept => ?_
  exact step.xorAll <| .cons fromAdd <| .cons fromLeft <| .cons fromRight <| .cons sec <|
    .cons kept .nil

theorem zero_lockstep (step : G.InStep Q) (hd : d.Alike d') (hr : r.Alike r') (he : e.Alike e')
    {word word' : Word C} (hw : word.Alike word') :
    Lockstep Q (Cycle.zero G d r e word) (Cycle.zero G d' r' e' word') Bit.Alike := by
  refine (hd.selector .beq).bind fun _ _ beq => ?_
  refine (hd.selector .bmi).bind fun _ _ bmi => ?_
  refine (step.xor beq bmi).bind fun _ _ branch => ?_
  refine (step.and branch hr.zero).bind fun _ _ held => ?_
  refine (step.isZero he.difference).bind fun _ _ equal => ?_
  refine (step.isZero hw).bind fun _ _ cleared => ?_
  refine (step.or cleared held).bind fun _ _ other => ?_
  refine (hd.selector .cmp).bind fun _ _ cmp => ?_
  exact step.keeps.select cmp equal other

theorem minus_lockstep (step : G.InStep Q) (hd : d.Alike d') (hr : r.Alike r')
    (he : e.Alike e') :
    Lockstep Q (Cycle.minus G d r e) (Cycle.minus G d' r' e') Bit.Alike := by
  refine (hd.selector .cmp).bind fun _ _ cmp => ?_
  refine (he.difference.bit 7).bind fun _ _ sign => ?_
  exact step.keeps.select cmp sign hr.minus

theorem taken_lockstep (step : G.InStep Q) (hd : d.Alike d') {zero zero' minus minus' : Bit C}
    (hz : zero.Alike zero') (hm : minus.Alike minus') :
    Lockstep Q (taken G d zero minus) (taken G d' zero' minus') Bit.Alike := by
  refine (hd.selector .bmi).bind fun _ _ bmi => ?_
  refine (step.and bmi hm).bind fun _ _ onMinus => ?_
  refine (hd.selector .beq).bind fun _ _ beq => ?_
  refine (step.and beq hz).bind fun _ _ onZero => ?_
  refine (hd.selector .jmp).bind fun _ _ jmp => ?_
  exact step.xorAll <| .cons jmp <| .cons onMinus <| .cons onZero .nil

theorem writeback_lockstep (step : G.InStep Q) (hd : d.Alike d') (hr : r.Alike r')
    {address address' loaded loaded' : Word C} (ha : address.Alike address')
    (hl : loaded.Alike loaded') (he : e.Alike e') :
    Lockstep Q (writeback G d r address loaded e) (writeback G d' r' address' loaded' e')
      EncryptedRegisters.Alike := by
  refine (result_lockstep step hd he).bind fun _ _ result => ?_
  refine (carry_lockstep step hd hr he).bind fun _ _ carry => ?_
  refine (zero_lockstep step hd hr he result).bind fun _ _ zero => ?_
  refine (minus_lockstep step hd hr he).bind fun _ _ minus => ?_
  refine (taken_lockstep step hd zero minus).bind fun _ _ taken => ?_
  refine (step.selectWord taken ha he.nextPc).bind fun _ _ pc => ?_
  refine (hr.ac.withLowBits result).bind fun _ _ ac => .pure ?_
  exact ⟨pc, ac, carry, zero, minus, hl⟩

/-- A cycle makes the same gates of state that is alike, and leaves it alike. -/
theorem run_lockstep (schedule : Schedule) (step : G.InStep Q) (ho : one.Alike one')
    (hr : r.Alike r') (hm : m.Alike m') :
    Lockstep Q (run G schedule one r m) (run G schedule one' r' m') fun answer answer' =>
      answer.1.Alike answer'.1 ∧ answer.2.1.Alike answer'.2.1 := by
  refine (fetch_lockstep step ho hr hm).metered.bind
    fun ((_, m), _) ((_, m'), _) ⟨hi, hm⟩ => ?_
  refine (decode_lockstep step hi).metered.bind fun (d, _) (d', _) hd => ?_
  refine (memoryStage_lockstep step hd hr hm).metered.bind
    fun ((_, _, m), _) ((_, _, m'), _) ⟨ha, hl, hm⟩ => ?_
  refine (execute_lockstep step ho hd hr hl).metered.bind fun (e, _) (e', _) he => ?_
  refine (writeback_lockstep step hd hr ha hl he).metered.bind fun _ _ registers => ?_
  exact .pure ⟨registers, hm⟩

end Cycle

end CipherMachine
