import CipherMachine.Proofs.Cost.Words
import CipherMachine.Proofs.Machine.Simulation
import Mathlib.Tactic.Ring

set_option autoImplicit false

/-!
The gates of an access.

A schedule that visits every cell once spends the sum of what the visits spend, in whatever order it
makes them.
-/

namespace CipherMachine

open GateM

/-- The schedule visits every cell of a memory of the given size exactly once. -/
def Schedule.Enumerates (size : Nat) : Schedule → Prop
  | .sequential => True
  | .ordered order => order.Perm (List.range size)

theorem Schedule.Enumerates.covers {schedule : Schedule} {size : Nat}
    (enumerates : schedule.Enumerates size) : schedule.Covers size := by
  cases schedule with
  | sequential => trivial
  | ordered order => exact fun i below => enumerates.mem_iff.mpr (List.mem_range.mpr below)

theorem MachineConfig.enumerates_schedule (config : MachineConfig) :
    config.schedule.Enumerates config.geometry.capacity := by
  unfold schedule
  split
  · exact .refl _
  · trivial

variable {C S : Type}

/-- A memory of the given shape, all of whose cells have one width. -/
structure Memory.Sized (m : Memory C) (g : Geometry) (width : Nat) : Prop where
  geometry : m.geometry = g
  size : m.cells.length = g.capacity
  cells : ∀ cell ∈ m.cells, cell.width = width

namespace Memory

section

variable {M α β : Type} [AddCommMonoid M] {tally : GateStats → M} {run : α → GateM S β}
  {price : α → M} {T : β → α → Prop} {all : List α}

/-- Indexes without an element cost nothing. -/
theorem visitAll_spends (step : ∀ a ∈ all, Spends tally (run a) (price a) (T · a))
    (order : List Nat) :
    Spends tally (visitAll run all order) (order.map fun i => (all[i]?.map price).getD 0).sum
      (Answered T all order) := by
  induction order with
  | nil => exact .pure .nil
  | cons i rest ih =>
      rw [visitAll, List.map_cons, List.sum_cons]
      cases found : all[i]? with
      | some a =>
          have chain := (step a (List.mem_of_getElem? found)).bind fun b hb =>
            ih.bind fun others answered =>
              Spends.pure (a := (i, b) :: others) (P := Answered T all (i :: rest))
                (answered.cons found hb)
          apply chain.as
          rw [add_zero]
          rfl
      | none =>
          apply (ih.mono fun others answered => answered.skip found).as
          exact (zero_add _).symm

private theorem map_range_price (all : List α) (price : α → M) :
    ((List.range all.length).map fun i => (all[i]?.map price).getD 0) = all.map price := by
  apply List.ext_getElem
  · simp
  · intro i _ bound
    rw [List.length_map] at bound
    rw [List.getElem_map, List.getElem_map, List.getElem_range, List.getElem?_eq_getElem bound,
      Option.map_some, Option.getD_some]

/-- The order of the visits changes nothing in what they spend together. -/
theorem scan_spends {schedule : Schedule} (enumerates : schedule.Enumerates all.length)
    (step : ∀ a ∈ all, Spends tally (run a) (price a) (T · a)) :
    Spends tally (scan schedule run all) (all.map price).sum (List.Forall₂ T · all) := by
  cases schedule with
  | sequential => exact .mapM step
  | ordered order =>
      have sums := (enumerates.map fun i => (all[i]?.map price).getD 0).sum_eq
      rw [map_range_price] at sums
      have chain := (visitAll_spends step order).bind fun done answered =>
        Spends.pure (a := (List.range all.length).filterMap fun i => List.lookup i done)
          (P := (List.Forall₂ T · all))
          (answered.results fun i below => enumerates.covers i below)
      apply chain.as
      rw [add_zero, sums]

end

variable (G : Gates C S)

theorem visit_spends (g : Geometry) (rows cols data : Word C) (write : Bit C)
    (cell : Word C × Nat) :
    Spends GateStats.gates (visit G g rows cols data write cell)
      (cell.1.width + data.width + 2, 2 * data.width, 0)
      fun out => out.masked.width = cell.1.width ∧ out.cell.width = data.width := by
  have chain := (Spends.lift (x := rows.bit (cell.2 / g.cols)) (P := fun _ => True)
      fun _ _ => trivial).bind fun row _ =>
    (Spends.lift (x := cols.bit (cell.2 % g.cols)) (P := fun _ => True)
      fun _ _ => trivial).bind fun col _ =>
    (G.and_spends row col).bind fun hit _ =>
    (Spends.loop cell.1.bits fun bit _ => G.and_spends hit bit).bind fun masked answer =>
    (G.and_spends hit write).bind fun store _ =>
    (G.selectWord_spends store cell.1 rfl).bind fun word width =>
    Spends.pure (a := (⟨⟨masked⟩, word⟩ : Visited C))
      (P := fun out => out.masked.width = cell.1.width ∧ out.cell.width = data.width)
      ⟨answer.1, width⟩
  apply chain.as
  simp only [Prod.add_def, Prod.smul_mk, Nat.nsmul_eq_mul, Prod.fst_zero, Prod.snd_zero,
    Word.width, Prod.mk.injEq]
  omega

theorem column_spends {visited : List (Visited C)} {n : Nat} (length : visited.length = n)
    (width : Nat) :
    Spends GateStats.gates ((List.range width).mapM fun i => do
        let column ← visited.mapM fun v => v.masked.bit i
        G.xorAll column)
      (0, width * (n - 1), 0) fun bits => bits.length = width := by
  subst length
  have digit : ∀ i ∈ List.range width, Spends GateStats.gates (do
      let column ← visited.mapM fun v => v.masked.bit i
      G.xorAll column) (0, visited.length - 1, 0) fun _ => True := by
    intro i _
    have chain := (Spends.loop visited fun v _ =>
        Spends.lift (x := v.masked.bit i) (P := fun _ => True) fun _ _ => trivial).bind
      fun column answer => G.xorAll_spends column answer.1
    apply chain.as
    simp
  refine ((Spends.loop _ digit).as _ ?_).mono fun bits answer => answer.1.trans List.length_range
  simp

/-- The bits of an address that select the column and the row. -/
theorem length_address {g : Geometry} {address : Word C} (width : ¬ address.width ≠ g.addressBits) :
    (address.bits.take g.colBits).length = g.colBits ∧
      (address.bits.drop g.colBits).length = g.rowBits := by
  have length : address.bits.length = g.rowBits + g.colBits := not_not.mp width
  rw [List.length_take, List.length_drop]
  omega

/-- The visits of all cells of a memory, whatever predicates they are made with. -/
theorem visits_spends {schedule : Schedule} {m : Memory C} {g : Geometry} {width : Nat}
    (enumerates : schedule.Enumerates g.capacity) (sized : m.Sized g width)
    (rows cols : Word C) {data : Word C} (hd : data.width = width) (write : Bit C) :
    Spends GateStats.gates (scan schedule (visit G g rows cols data write) m.cells.zipIdx)
      (g.capacity * (2 * width + 2), g.capacity * (2 * width), 0)
      fun visited => visited.length = g.capacity ∧ ∀ v ∈ visited, v.cell.width = width := by
  have count : m.cells.zipIdx.length = g.capacity := List.length_zipIdx.trans sized.size
  have step : ∀ cell ∈ m.cells.zipIdx, Spends GateStats.gates (visit G g rows cols data write cell)
      (2 * width + 2, 2 * width, 0) fun out => out.cell.width = width := by
    intro cell member
    have spends := visit_spends G g rows cols data write cell
    rw [hd, sized.cells _ (List.fst_mem_of_mem_zipIdx member), ← Nat.two_mul] at spends
    exact spends.mono fun out widths => widths.2
  rw [← count] at enumerates
  have spends := scan_spends enumerates step
  rw [List.map_const', List.sum_replicate, count] at spends
  refine (spends.as _ ?_).mono fun visited answer => ⟨answer.length_eq.trans count, ?_⟩
  · simp only [Prod.smul_mk, Nat.nsmul_eq_mul, Nat.mul_zero]
  · intro v member
    obtain ⟨_, _, held⟩ := exists_of_forall₂ answer member
    exact held

def accessGates (g : Geometry) (width : Nat) : Nat × Nat × Nat :=
  (2 ^ g.colBits * (g.colBits - 1) + 2 ^ g.rowBits * (g.rowBits - 1) +
      g.capacity * (2 * width + 2) + width,
    (3 * g.capacity + 1) * width, g.addressBits + 1)

/-- Whatever it addresses, and whether it reads or writes, an access spends the same. -/
theorem access_spends {schedule : Schedule} {m : Memory C} {g : Geometry} {width : Nat}
    (enumerates : schedule.Enumerates g.capacity) (sized : m.Sized g width)
    (address : Word C) {data fallback : Word C} (read : Bit C) (hd : data.width = width)
    (hf : fallback.width = width) :
    Spends GateStats.gates (m.access G schedule address data read fallback) (accessGates g width)
      fun answer => answer.1.width = width ∧ answer.2.Sized g width := by
  have geometry := sized.geometry
  subst geometry
  apply Spends.guarded
  intro addressed
  obtain ⟨low, high⟩ := length_address addressed
  have chain := (G.decoder_spends low).bind fun cols _ =>
    (G.decoder_spends high).bind fun rows _ =>
    (G.not_spends read).bind fun write _ =>
    (visits_spends G enumerates sized ⟨rows⟩ ⟨cols⟩ hd write).bind fun visited ⟨count, cells⟩ =>
    (column_spends G count fallback.width).bind fun bits hbits =>
    (G.selectWord_spends read fallback hbits).bind fun answer hanswer =>
    Spends.pure (a := (answer, ({ m with cells := visited.map Visited.cell } : Memory C)))
      (P := fun answer => answer.1.width = width ∧ answer.2.Sized m.geometry width)
      ⟨hanswer.trans hf, rfl, (List.length_map _).trans count, List.forall_mem_map.mpr cells⟩
  apply chain.as
  have positive : 0 < m.geometry.capacity := by
    rw [Geometry.capacity_eq]
    exact Nat.two_pow_pos _
  obtain ⟨rest, succ⟩ := Nat.exists_eq_add_one.mpr positive
  simp only [accessGates, Geometry.addressBits, Prod.add_def, Prod.fst_zero, Prod.snd_zero,
    Prod.mk.injEq, succ, hf, Nat.add_sub_cancel]
  constructor
  · omega
  · constructor
    · ring
    · omega

end Memory

end CipherMachine
