import CipherMachine.Memory
import CipherMachine.Proofs.Gates.Pattern
import CipherMachine.Proofs.Gates.Selection
import Mathlib.Data.List.Zip

set_option autoImplicit false

/-!
An oblivious access is an array access: it reads the addressed cell or replaces it, in whatever
order the cells are visited.
-/

namespace CipherMachine

open GateM

def Schedule.Covers (size : Nat) : Schedule → Prop
  | .sequential => True
  | .ordered order => ∀ i < size, i ∈ order

namespace Memory

variable {C S : Type} {G : Gates C S} {reads : Bit C → Bool → Prop} {dry : S → Prop}

section

variable {α β γ : Type} {run : α → GateM S β} {R : α → γ → Prop} {T : β → γ → Prop}
  {all : List α} {cs : List γ}

/-- Results with their indexes answer for the elements at those indexes, and for no fewer indexes
than the order lists. -/
def Answered (T : β → γ → Prop) (cs : List γ) (order : List Nat) (done : List (Nat × β)) : Prop :=
  (∀ p ∈ done, ∀ c, cs[p.1]? = some c → T p.2 c) ∧
    ∀ i ∈ order, i < cs.length → ∃ p ∈ done, p.1 = i

namespace Answered

variable {order : List Nat} {done : List (Nat × β)}

theorem nil : Answered T cs [] [] := ⟨List.forall_mem_nil _, List.forall_mem_nil _⟩

theorem cons {i : Nat} {b : β} {c : γ} (partner : cs[i]? = some c) (holds : T b c)
    (others : Answered T cs order done) : Answered T cs (i :: order) ((i, b) :: done) := by
  obtain ⟨sound, complete⟩ := others
  constructor
  · intro p member c' at_index
    rcases List.mem_cons.mp member with rfl | later
    · rw [partner] at at_index
      obtain rfl := Option.some.inj at_index
      exact holds
    · exact sound p later c' at_index
  · intro j member below
    rcases List.mem_cons.mp member with rfl | later
    · exact ⟨_, List.mem_cons_self, rfl⟩
    · obtain ⟨p, mem, same⟩ := complete j later below
      exact ⟨p, List.mem_cons_of_mem _ mem, same⟩

theorem skip {i : Nat} (missing : cs[i]? = none) (others : Answered T cs order done) :
    Answered T cs (i :: order) done := by
  refine ⟨others.1, fun j member below => ?_⟩
  rcases List.mem_cons.mp member with rfl | later
  · exact absurd below (Nat.not_lt.mpr (List.getElem?_eq_none_iff.mp missing))
  · exact others.2 j later below

end Answered

/-- Results looked up by index stand in the order of the indexes. -/
private theorem filterMap_lookup {done : List (Nat × β)} {indexes : List Nat}
    (found : List.Forall₂ (fun i c => ∃ b, List.lookup i done = some b ∧ T b c) indexes cs) :
    List.Forall₂ T (indexes.filterMap fun i => List.lookup i done) cs := by
  induction found with
  | nil => exact .nil
  | cons head _ ih =>
      obtain ⟨b, result, holds⟩ := head
      rw [List.filterMap_cons, result]
      exact .cons holds ih

/-- Results of an order that leaves out no index, put back in the order of the indexes. -/
theorem Answered.results {order : List Nat} {done : List (Nat × β)}
    (answered : Answered T cs order done) (covers : ∀ i < cs.length, i ∈ order) :
    List.Forall₂ T ((List.range cs.length).filterMap fun i => List.lookup i done) cs := by
  obtain ⟨sound, complete⟩ := answered
  apply filterMap_lookup
  rw [List.forall₂_iff_get]
  refine ⟨List.length_range, fun i below bound => ?_⟩
  rw [List.length_range] at below
  rw [List.get_eq_getElem, List.getElem_range]
  obtain ⟨p, member, rfl⟩ := complete i (covers i below) below
  cases result : List.lookup p.1 done with
  | none =>
      rw [List.lookup_eq_none_iff] at result
      simpa using result p member
  | some b =>
      obtain ⟨_, _, split, _⟩ := List.lookup_eq_some_iff.mp result
      refine ⟨b, rfl, sound (p.1, b) ?_ _ (List.getElem?_eq_getElem bound)⟩
      rw [split]
      exact List.mem_append_right _ List.mem_cons_self

theorem visitAll_yields (inputs : List.Forall₂ R all cs)
    (step : ∀ a c, R a c → Yields dry (run a) (T · c)) (order : List Nat) :
    (visitAll run all order).Yields dry (Answered T cs order) := by
  induction order with
  | nil => exact .pure .nil
  | cons i rest ih =>
      rw [visitAll]
      obtain ⟨a, c, found, partner, both⟩ | ⟨missing, none⟩ := forall₂_getElem? inputs i
      · rw [found]
        refine (step a c both).bind fun b hb => ?_
        exact ih.bind fun others answered => .pure (answered.cons partner hb)
      · rw [missing]
        exact ih.mono fun others answered => answered.skip none

/-- A scan by any schedule that leaves out no cell answers in address order. -/
theorem scan_yields (schedule : Schedule) (covers : schedule.Covers all.length)
    (inputs : List.Forall₂ R all cs) (step : ∀ a c, R a c → Yields dry (run a) (T · c)) :
    (scan schedule run all).Yields dry (List.Forall₂ T · cs) := by
  cases schedule with
  | sequential => exact .mapM inputs step
  | ordered order =>
      refine (visitAll_yields inputs step order).bind fun done answered => .pure ?_
      have length := inputs.length_eq
      rw [length]
      exact answered.results fun i below => covers i (length ▸ below)

end

section

variable {width address d : Nat} {r : Bool}

/-- The predicate with the given index tells whether `named` is that index. -/
theorem predicate_yields {bits : List (Bit C)} {count named index : Nat}
    (decoded : List.Forall₂ (fun b i => reads b (decide (named = i))) bits (List.range count))
    (below : index < count) :
    Yields dry (liftM (Word.bit ⟨bits⟩ index) : GateM S (Bit C))
      (reads · (decide (named = index))) := by
  have bound : index < bits.length := by
    rw [decoded.length_eq, List.length_range]
    exact below
  have read := decoded.get bound (by rw [List.length_range]; exact below)
  rw [List.get_eq_getElem, List.get_eq_getElem, List.getElem_range] at read
  apply Yields.lift (a := bits[index]) _ read
  rw [Word.bit, List.getElem?_eq_getElem bound]

private theorem row_and_col (address index cols : Nat) :
    (decide (address / cols = index / cols) && decide (address % cols = index % cols)) =
      decide (index = address) := by
  rw [← Bool.decide_and]
  apply decide_eq_decide.mpr
  constructor
  · rintro ⟨row, col⟩
    rw [← Nat.div_add_mod index cols, ← Nat.div_add_mod address cols, row, col]
  · intro same
    rw [same]
    exact ⟨rfl, rfl⟩

/-- A visit masks the cell by its predicates and replaces it if it is to be written. Every cell of
the memory has its predicates. -/
theorem visit_yields (hom : G.Homomorphic reads dry) {g : Geometry} {rows cols : List (Bit C)}
    (hrows : List.Forall₂ (fun b i => reads b (decide (address / g.cols = i))) rows
      (List.range g.rows))
    (hcols : List.Forall₂ (fun b i => reads b (decide (address % g.cols = i))) cols
      (List.range g.cols))
    {data : Word C} {write : Bit C} (hd : data.Holds reads width d) (hw : reads write !r)
    {word : Word C} {n index : Nat} (within : index < g.capacity)
    (held : word.Holds reads width n) :
    (visit G g ⟨rows⟩ ⟨cols⟩ data write (word, index)).Yields dry fun out =>
      out.masked.Holds reads width (if index = address then n else 0) ∧
        out.cell.Holds reads width (if index = address ∧ r = false then d else n) := by
  have row : index / g.cols < g.rows := by
    apply Nat.div_lt_of_lt_mul
    rw [Nat.mul_comm]
    exact within
  have col : index % g.cols < g.cols := Nat.mod_lt _ (Nat.two_pow_pos _)
  refine (predicate_yields hrows row).bind fun hitRow hr => ?_
  refine (predicate_yields hcols col).bind fun hitCol hc => ?_
  refine (hom.and hr hc).bind fun hit hhit => ?_
  rw [row_and_col] at hhit
  refine (Yields.mapM held (T := fun b z => reads b (decide (index = address) && z))
    fun a z ha => hom.and hhit ha).bind fun masked hm => ?_
  refine (hom.and hhit hw).bind fun store hs => ?_
  refine (hom.selectWord hs hd held).bind fun new hn => .pure ⟨?_, ?_⟩
  · rw [← List.forall₂_map_right_iff, map_and_binaryDigits] at hm
    rw [Word.Holds]
    simpa only [decide_eq_true_eq] using hm
  · simpa using hn

/-- The visits of all cells of a memory, by a schedule that leaves out no cell. -/
theorem visits_yield (hom : G.Homomorphic reads dry) {g : Geometry} {rows cols : List (Bit C)}
    (hrows : List.Forall₂ (fun b i => reads b (decide (address / g.cols = i))) rows
      (List.range g.rows))
    (hcols : List.Forall₂ (fun b i => reads b (decide (address % g.cols = i))) cols
      (List.range g.cols))
    {data : Word C} {write : Bit C} (hd : data.Holds reads width d) (hw : reads write !r)
    (schedule : Schedule) (covers : schedule.Covers g.capacity) {cells : List (Word C)}
    {ns : List Nat} (size : ns.length = g.capacity)
    (held : List.Forall₂ (fun cell n => Word.Holds reads cell width n) cells ns) :
    (scan schedule (visit G g ⟨rows⟩ ⟨cols⟩ data write) cells.zipIdx).Yields dry
      (List.Forall₂ (fun out cell =>
        out.masked.Holds reads width (if cell.2 = address then cell.1 else 0) ∧
          out.cell.Holds reads width (if cell.2 = address ∧ r = false then d else cell.1)) ·
        ns.zipIdx) := by
  apply scan_yields schedule _ (forall₂_and_mem (forall₂_zipIdx held))
  · rintro ⟨word, index⟩ ⟨n, _⟩ ⟨member, held, rfl⟩
    have below := List.snd_lt_of_mem_zipIdx member
    rw [size, Nat.add_zero] at below
    exact visit_yields hom hrows hcols hd hw below held
  · rw [List.length_zipIdx, held.length_eq, size]
    exact covers

theorem column_yields (hom : G.Homomorphic reads dry) {visited : List (Visited C)} {ns : List Nat}
    (within : address < ns.length) (masked : List.Forall₂ (fun v cell =>
      Word.Holds reads v.masked width (if cell.2 = address then cell.1 else 0)) visited ns.zipIdx) :
    Yields dry ((List.range width).mapM fun i => do
        let column ← visited.mapM fun v => v.masked.bit i
        G.xorAll column)
      fun bits => Word.Holds reads ⟨bits⟩ width (ns.getD address 0) := by
  have digit : ∀ i ∈ List.range width, Yields dry (do
      let column ← visited.mapM fun v => v.masked.bit i
      G.xorAll column) (reads · ((ns.getD address 0).testBit i)) := by
    intro i member
    have sum := selectedSum_zipIdx ns 0 address
    rw [Nat.zero_add] at sum
    rw [← sum, testBit_selectedSum, List.map_map]
    refine (Yields.mapM masked (T := fun b cell =>
      reads b (decide (cell.2 = address) && cell.1.testBit i)) ?_).bind fun column answer => ?_
    · rintro v cell held
      refine (held.bit (List.mem_range.mp member)).mono fun b hb => ?_
      by_cases reached : cell.2 = address <;> simpa [reached] using hb
    · apply hom.xorAll
      · rw [List.forall₂_map_right_iff]
        exact answer
      · apply List.ne_nil_of_length_pos
        rw [List.length_map, List.length_zipIdx]
        exact Nat.zero_lt_of_lt within
  refine (Yields.mapM_mem digit).mono fun bits answer => ?_
  rw [Word.Holds, binaryDigits, List.forall₂_map_right_iff]
  exact answer

/-- The cells after an access: all as they were, or one replaced. -/
private theorem map_zipIdx_set (ns : List Nat) (address d : Nat) (r : Bool) :
    (ns.zipIdx.map fun cell => if cell.2 = address ∧ r = false then d else cell.1) =
      if r then ns else ns.set address d := by
  cases r with
  | true => simp
  | false =>
      rw [if_neg Bool.false_ne_true]
      apply List.ext_getElem?
      intro i
      rw [List.getElem?_map, List.getElem?_zipIdx, List.getElem?_set, Option.map_map, Nat.zero_add]
      by_cases here : address = i
      · subst here
        by_cases within : address < ns.length <;> simp [within]
      · cases ns[i]? <;> simp [here, Ne.symm here]

/-- Whatever the schedule, an access reads the addressed cell or replaces it. -/
theorem access_yields (hom : G.Homomorphic reads dry) {schedule : Schedule} {m : Memory C}
    {ns : List Nat} {addressWord data fallback : Word C} {read : Bit C} {f : Nat}
    (covers : schedule.Covers m.geometry.capacity)
    (size : ns.length = m.geometry.capacity) (within : address < m.geometry.capacity)
    (cells : List.Forall₂ (fun cell n => Word.Holds reads cell width n) m.cells ns)
    (ha : addressWord.Holds reads m.geometry.addressBits address)
    (hd : data.Holds reads width d) (hr : reads read r) (hf : fallback.Holds reads width f) :
    (m.access G schedule addressWord data read fallback).Yields dry fun answer =>
      answer.1.Holds reads width (if r then ns.getD address 0 else f) ∧
        answer.2.geometry = m.geometry ∧
        List.Forall₂ (fun cell n => Word.Holds reads cell width n) answer.2.cells
          (if r then ns else ns.set address d) := by
  have fits := m.geometry.addressBits_le
  unfold Memory.access
  apply Yields.guarded
  · rw [ha.width_eq]
    exact not_not_intro rfl
  have col := List.forall₂_take m.geometry.colBits ha
  have row := List.forall₂_drop m.geometry.colBits ha
  have narrow : m.geometry.colBits ≤ m.geometry.addressBits := Nat.le_add_left _ _
  rw [take_binaryDigits address narrow] at col
  rw [drop_binaryDigits, Geometry.addressBits, Nat.add_sub_cancel] at row
  have high : address / 2 ^ m.geometry.colBits < 2 ^ m.geometry.rowBits := by
    rw [Nat.div_lt_iff_lt_mul (Nat.two_pow_pos _)]
    exact within
  unfold Geometry.addressBits at fits
  refine (hom.decoder col m.geometry.colBits_pos (by omega)).bind fun cols hcols => ?_
  refine (hom.decoder row m.geometry.rowBits_pos (by omega)).bind fun rows hrows => ?_
  rw [Nat.mod_eq_of_lt high] at hrows
  refine (hom.not hr).bind fun write hw => ?_
  have visits := visits_yield hom hrows hcols hd hw schedule covers size cells
  refine visits.bind fun visited hv => ?_
  have cells' := hv.imp fun _ _ both => both.2
  rw [hf.width_eq]
  refine (column_yields hom (size ▸ within) (hv.imp fun _ _ both => both.1)).bind
    fun bits hb => ?_
  refine (hom.selectWord hr hb hf).bind fun answer hanswer => .pure ⟨hanswer, rfl, ?_⟩
  rw [List.forall₂_map_left_iff, ← map_zipIdx_set, List.forall₂_map_right_iff]
  exact cells'

end

end Memory

end CipherMachine
