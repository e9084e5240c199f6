import CipherMachine.Cycle
import CipherMachine.Proofs.Gates.Leads

set_option autoImplicit false

/-!
Where the phases of a cycle lead.

A cycle is made of nothing but gates, so what holds of every gate holds of an access to memory and
of every phase.
-/

namespace CipherMachine

open GateM

variable {C S : Type} {G : Gates C S} {R : Session S → Session S → Prop}

namespace Memory

theorem visitAll_leads {α β : Type} (onward : Onward R) {run : α → GateM S β}
    (step : ∀ a, Leads R (run a)) (all : List α) (order : List Nat) :
    Leads R (visitAll run all order) := by
  induction order with
  | nil => exact onward.pure
  | cons i rest ih =>
      rw [visitAll]
      cases all[i]? with
      | none => exact ih
      | some a =>
          refine onward.bind (step a) fun b => ?_
          exact onward.bind ih fun others => onward.pure

theorem scan_leads {α β : Type} (onward : Onward R) (schedule : Schedule) {run : α → GateM S β}
    (step : ∀ a, Leads R (run a)) (all : List α) : Leads R (scan schedule run all) := by
  cases schedule with
  | sequential => exact onward.mapM step all
  | ordered order =>
      exact onward.bind (visitAll_leads onward step all order) fun done => onward.pure

theorem visit_leads (leads : G.Leads R) (g : Geometry) (rows cols data : Word C) (write : Bit C)
    (cell : Word C × Nat) : Leads R (visit G g rows cols data write cell) := by
  refine leads.onward.bind (leads.onward.lift _) fun row => ?_
  refine leads.onward.bind (leads.onward.lift _) fun col => ?_
  refine leads.onward.bind (leads.and row col) fun hit => ?_
  refine leads.onward.bind (leads.onward.mapM (leads.and hit) cell.1.bits) fun masked => ?_
  refine leads.onward.bind (leads.and hit write) fun store => ?_
  exact leads.onward.bind (leads.selectWord store data cell.1) fun word => leads.onward.pure

theorem access_leads (leads : G.Leads R) (schedule : Schedule) (m : Memory C)
    (address data : Word C) (read : Bit C) (fallback : Word C) :
    Leads R (m.access G schedule address data read fallback) := by
  have column : ∀ (visited : List (Visited C)) (i : Nat), Leads R (do
      let column ← visited.mapM fun v => (v.masked.bit i : GateM S (Bit C))
      G.xorAll column) := by
    intro visited i
    refine leads.onward.bind (leads.onward.mapM (fun v => leads.onward.lift _) visited) ?_
    exact leads.onward.reduce leads.xor
  apply leads.onward.guarded
  refine leads.onward.bind (leads.matchPatterns _ _) fun cols => ?_
  refine leads.onward.bind (leads.matchPatterns _ _) fun rows => ?_
  refine leads.onward.bind (leads.not read) fun write => ?_
  have visit := visit_leads leads m.geometry ⟨rows⟩ ⟨cols⟩ data write
  refine leads.onward.bind (scan_leads leads.onward schedule visit _) fun visited => ?_
  refine leads.onward.bind (leads.onward.mapM (column visited) _) fun bits => ?_
  exact leads.onward.bind (leads.selectWord read ⟨bits⟩ fallback) fun answer => leads.onward.pure

end Memory

namespace Cycle

variable (leads : G.Leads R)
include leads

/-- What is read off a register or a selector leads nowhere. -/
theorem read_leads {α β : Type} (x : Except Fault α) {next : α → GateM S β}
    (after : ∀ a, Leads R (next a)) : Leads R ((liftM x : GateM S α) >>= next) :=
  leads.onward.bind (leads.onward.lift x) after

theorem fetch_leads (schedule : Schedule) (one : Bit C) (r : EncryptedRegisters C)
    (m : Memory C) : Leads R (fetch G schedule one r m) :=
  Memory.access_leads leads schedule m r.pc r.ac one r.staging

theorem decode_leads (instruction : Word C) : Leads R (decode G instruction) := by
  refine read_leads leads _ fun nibble => ?_
  refine leads.onward.bind (leads.matchPatterns nibble.bits _) fun selectors => ?_
  refine read_leads leads _ fun indirect => ?_
  exact read_leads leads _ fun operand => leads.onward.pure

variable (d : Decoded C) (r : EncryptedRegisters C) (e : Candidates C)

theorem memoryStage_leads (schedule : Schedule) (m : Memory C) :
    Leads R (memoryStage G schedule d r m) := by
  refine read_leads leads _ fun accumulator => ?_
  refine read_leads leads _ fun operand => ?_
  refine leads.onward.bind (leads.selectWord d.indirect accumulator operand) fun address => ?_
  refine read_leads leads _ fun store => ?_
  refine leads.onward.bind (leads.not store) fun read => ?_
  exact leads.onward.bind (Memory.access_leads leads schedule m address r.ac read r.staging)
    fun answer => leads.onward.pure

theorem execute_leads (one : Bit C) (loaded : Word C) : Leads R (execute G one d r loaded) := by
  refine read_leads leads _ fun a => ?_
  refine read_leads leads _ fun loaded => ?_
  refine leads.onward.bind (leads.selectWord d.indirect loaded d.operand) fun b => ?_
  refine leads.onward.bind (leads.add a b r.carry) fun sum => ?_
  refine leads.onward.bind (leads.zipWord leads.xor a b) fun xor => ?_
  refine leads.onward.bind (leads.zipWord leads.and a b) fun and => ?_
  refine leads.onward.bind (leads.zipWord leads.or a b) fun or => ?_
  refine leads.onward.bind (leads.notWord b) fun complement => ?_
  refine leads.onward.bind (leads.add a complement one) fun difference => ?_
  exact leads.onward.bind (leads.increment r.pc) fun nextPc => leads.onward.pure

theorem result_leads : Leads R (result G d e) := by
  refine read_leads leads _ fun store => read_leads leads _ fun clc => ?_
  refine read_leads leads _ fun sec => read_leads leads _ fun beq => ?_
  refine read_leads leads _ fun jmp => read_leads leads _ fun bmi => ?_
  refine read_leads leads _ fun cmp => ?_
  refine leads.onward.bind (leads.onward.reduce leads.xor _) fun keep => ?_
  refine read_leads leads _ fun load => read_leads leads _ fun la => ?_
  refine read_leads leads _ fun rol => read_leads leads _ fun ror => ?_
  refine read_leads leads _ fun add => read_leads leads _ fun xor => ?_
  refine read_leads leads _ fun and => read_leads leads _ fun or => ?_
  exact leads.mux _

theorem carry_leads : Leads R (carry G d r e) := by
  refine read_leads leads _ fun add => read_leads leads _ fun rol => ?_
  refine read_leads leads _ fun ror => read_leads leads _ fun sec => ?_
  refine read_leads leads _ fun clc => ?_
  refine leads.onward.bind (leads.onward.reduce leads.xor _) fun written => ?_
  refine leads.onward.bind (leads.and add e.sum.2) fun fromAdd => ?_
  refine leads.onward.bind (leads.and rol e.left.2) fun fromLeft => ?_
  refine leads.onward.bind (leads.and ror e.right.2) fun fromRight => ?_
  refine leads.onward.bind (leads.not written) fun idle => ?_
  refine leads.onward.bind (leads.and idle r.carry) fun kept => ?_
  exact leads.onward.reduce leads.xor _

theorem zero_leads (result : Word C) : Leads R (zero G d r e result) := by
  refine read_leads leads _ fun beq => read_leads leads _ fun bmi => ?_
  refine leads.onward.bind (leads.xor beq bmi) fun branch => ?_
  refine leads.onward.bind (leads.and branch r.zero) fun held => ?_
  refine leads.onward.bind (leads.isZero e.difference) fun equal => ?_
  refine leads.onward.bind (leads.isZero result) fun cleared => ?_
  refine leads.onward.bind (leads.or cleared held) fun other => ?_
  exact read_leads leads _ fun cmp => leads.select cmp equal other

theorem minus_leads : Leads R (minus G d r e) := by
  refine read_leads leads _ fun cmp => ?_
  exact read_leads leads _ fun sign => leads.select cmp sign r.minus

theorem taken_leads (zero minus : Bit C) : Leads R (taken G d zero minus) := by
  refine read_leads leads _ fun bmi => ?_
  refine leads.onward.bind (leads.and bmi minus) fun onMinus => ?_
  refine read_leads leads _ fun beq => ?_
  refine leads.onward.bind (leads.and beq zero) fun onZero => ?_
  exact read_leads leads _ fun jmp => leads.onward.reduce leads.xor _

theorem writeback_leads (address loaded : Word C) :
    Leads R (writeback G d r address loaded e) := by
  refine leads.onward.bind (result_leads leads d e) fun result => ?_
  refine leads.onward.bind (carry_leads leads d r e) fun carry => ?_
  refine leads.onward.bind (zero_leads leads d r e result) fun zero => ?_
  refine leads.onward.bind (minus_leads leads d r e) fun minus => ?_
  refine leads.onward.bind (taken_leads leads d zero minus) fun taken => ?_
  refine leads.onward.bind (leads.selectWord taken address e.nextPc) fun pc => ?_
  exact read_leads leads _ fun ac => leads.onward.pure

end Cycle

end CipherMachine
