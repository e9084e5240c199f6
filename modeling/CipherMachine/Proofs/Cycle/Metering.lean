import CipherMachine.Proofs.Cycle.Leads
import CipherMachine.Proofs.Refreshes
import Mathlib.Order.Nat
import Mathlib.Tactic.Ring

set_option autoImplicit false

/-!
What a metered cycle says of its gates.

Each phase begins in the session that the one before it has left, so no gate falls between two
snapshots of the counters, and no counter falls between them. What the phases use therefore adds up
to what the counters gain over the cycle, and no difference of counters is cut off.
-/

namespace CipherMachine

open GateM

variable {C S : Type}

/-- What was counted up to a point and what was counted since then. -/
theorem GateStats.counters_add_since {earlier later : GateStats}
    (rises : earlier.counters ≤ later.counters) :
    earlier.counters + (later.since earlier).counters = later.counters := by
  simp only [counters, Prod.mk_le_mk] at rises
  simp only [counters, since, Prod.mk_add_mk, Prod.mk.injEq]
  omega

def Rising (s t : Session S) : Prop := s.stats.counters ≤ t.stats.counters

theorem onward_rising : Onward (Rising (S := S)) where
  refl _ := le_rfl
  trans := le_trans

theorem Gates.leads_rising (G : Gates C S) : G.Leads Rising := by
  apply G.leads_of_counters onward_rising
  intro s t ands xors nots refreshes counted _
  rw [Rising, counted]
  simp only [GateStats.counters, Prod.mk_add_mk, Prod.mk_le_mk]
  omega

namespace GateM

variable {α : Type} {m : GateM S α} {s t : Session S} {a : α} {used : GateStats}

theorem metered_eq_ok (answer : (metered m).exec s = (.ok (a, used), t)) :
    m.exec s = (.ok a, t) ∧ used = t.stats.since s.stats := by
  obtain ⟨_, _, snapshot, rest⟩ := exec_bind_ok answer
  cases snapshot
  obtain ⟨result, _, ran, rest⟩ := exec_bind_ok rest
  cases rest
  exact ⟨ran, rfl⟩

/-- The computation answers `a` and leads from the session `s` to the session `t`. No counter falls
on the way, and `used` is what they gain. -/
structure Meters (m : GateM S α) (s : Session S) (a : α) (used : GateStats) (t : Session S) :
    Prop where
  answers : m.exec s = (.ok a, t)
  rises : s.stats.counters ≤ t.stats.counters
  used_eq : used = t.stats.since s.stats

namespace Meters

/-- The metered computation is made of gates. -/
theorem of_leads (leads : m.Leads Rising) (answer : (metered m).exec s = (.ok (a, used), t)) :
    m.Meters s a used t := by
  obtain ⟨ran, used_eq⟩ := metered_eq_ok answer
  have rising := leads s
  rw [ran] at rising
  exact ⟨ran, rising.resolve_left nofun, used_eq⟩

theorem adds_up (meters : m.Meters s a used t) :
    s.stats.counters + used.counters = t.stats.counters := by
  rw [meters.used_eq]
  exact GateStats.counters_add_since meters.rises

end Meters

end GateM

/-- A cycle, phase by phase: each begins in the session that the one before it has left. -/
inductive Cycle.Phased (G : Gates C S) (schedule : Schedule) (one : Bit C)
    (r : EncryptedRegisters C) (m : Memory C) (s : Session S) :
    EncryptedRegisters C → Memory C → List PhaseCost → Session S → Prop where
  | phases {instruction address loaded : Word C} {fetchedFrom stored : Memory C} {d : Decoded C}
      {candidates : Candidates C} {next : EncryptedRegisters C} {s₁ s₂ s₃ s₄ t : Session S}
      {fetched decoded staged executed written : GateStats}
      (fetch : (fetch G schedule one r m).Meters s (instruction, fetchedFrom) fetched s₁)
      (decode : (decode G instruction).Meters s₁ d decoded s₂)
      (memory : (memoryStage G schedule d r fetchedFrom).Meters s₂ (address, loaded, stored) staged
        s₃)
      (execute : (execute G one d r loaded).Meters s₃ candidates executed s₄)
      (writeback : (writeback G d r address loaded candidates).Meters s₄ next written t) :
      Phased G schedule one r m s next stored [⟨.fetch, fetched⟩, ⟨.decode, decoded⟩,
        ⟨.memory, staged⟩, ⟨.execute, executed⟩, ⟨.writeback, written⟩] t

namespace Cycle

variable {G : Gates C S} {schedule : Schedule} {one : Bit C} {r next : EncryptedRegisters C}
  {m stored : Memory C} {s t : Session S} {costs : List PhaseCost}

theorem phased_of_run (answer : (run G schedule one r m).exec s = (.ok (next, stored, costs), t)) :
    Phased G schedule one r m s next stored costs t := by
  have leads := G.leads_rising
  obtain ⟨⟨⟨instruction, fetchedFrom⟩, fetched⟩, s₁, fetch, rest⟩ := exec_bind_ok answer
  obtain ⟨⟨d, decoded⟩, s₂, decode, rest⟩ := exec_bind_ok rest
  obtain ⟨⟨⟨address, loaded, stored⟩, staged⟩, s₃, memory, rest⟩ := exec_bind_ok rest
  obtain ⟨⟨candidates, executed⟩, s₄, execute, rest⟩ := exec_bind_ok rest
  obtain ⟨⟨next, written⟩, t, writeback, rest⟩ := exec_bind_ok rest
  cases rest
  exact .phases (.of_leads (fetch_leads leads schedule one r m) fetch)
    (.of_leads (decode_leads leads instruction) decode)
    (.of_leads (memoryStage_leads leads d r schedule fetchedFrom) memory)
    (.of_leads (execute_leads leads d r one loaded) execute)
    (.of_leads (writeback_leads leads d r candidates address loaded) writeback)

namespace Phased

variable (phased : Phased G schedule one r m s next stored costs t)
include phased

theorem order :
    costs.map PhaseCost.phase = [.fetch, .decode, .memory, .execute, .writeback] := by
  cases phased
  rfl

theorem rises : s.stats.counters ≤ t.stats.counters := by
  cases phased with
  | phases fetch decode memory execute writeback =>
      have decoded := fetch.rises.trans decode.rises
      have staged := decoded.trans memory.rises
      exact (staged.trans execute.rises).trans writeback.rises

theorem adds_up :
    s.stats.counters + (costs.map (·.used.counters)).sum = t.stats.counters := by
  cases phased with
  | phases fetch decode memory execute writeback =>
      rw [← writeback.adds_up, ← execute.adds_up, ← memory.adds_up, ← decode.adds_up,
        ← fetch.adds_up]
      simp only [List.map_cons, List.map_nil, List.sum_cons, List.sum_nil, add_zero, add_assoc]

end Phased

end Cycle

end CipherMachine
