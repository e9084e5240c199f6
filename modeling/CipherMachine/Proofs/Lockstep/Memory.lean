import CipherMachine.Memory
import CipherMachine.Proofs.Lockstep.Gates

set_option autoImplicit false

/-!
Accesses of memories that are alike run in lockstep, whatever they address and whether they read
or write.
-/

namespace CipherMachine

open GateM

variable {C S : Type} {G : Gates C S} {Q : Session S → Session S → Prop}

/-- Memories of one shape whose cells are alike. -/
structure Memory.Alike (m m' : Memory C) : Prop where
  geometry : m.geometry = m'.geometry
  cells : List.Forall₂ Word.Alike m.cells m'.cells

def Cell.Alike (cell cell' : Word C × Nat) : Prop := cell.1.Alike cell'.1 ∧ cell.2 = cell'.2

theorem Cell.Alike.refl (cell : Word C × Nat) : Cell.Alike cell cell := ⟨.refl cell.1, rfl⟩

structure Visited.Alike (v v' : Visited C) : Prop where
  masked : Word.Alike v.masked v'.masked
  cell : Word.Alike v.cell v'.cell

namespace Memory

section

variable {α β γ δ : Type} {run : α → GateM S γ} {run' : β → GateM S δ} {R : α → β → Prop}
  {T : γ → δ → Prop} {all : List α} {all' : List β}

def Indexed (T : γ → δ → Prop) (done : List (Nat × γ)) (done' : List (Nat × δ)) : Prop :=
  List.Forall₂ (fun p q => p.1 = q.1 ∧ T p.2 q.2) done done'

theorem visitAll_lockstep (alike : List.Forall₂ R all all')
    (step : ∀ a b, R a b → Lockstep Q (run a) (run' b) T) (order : List Nat) :
    Lockstep Q (visitAll run all order) (visitAll run' all' order) (Indexed T) := by
  induction order with
  | nil => exact .pure .nil
  | cons i rest ih =>
      rw [visitAll, visitAll]
      obtain ⟨a, b, left, right, both⟩ | ⟨left, right⟩ := forall₂_getElem? alike i
      · rw [left, right]
        refine (step a b both).bind fun _ _ first => ?_
        exact ih.bind fun _ _ others => .pure (.cons ⟨rfl, first⟩ others)
      · rw [left, right]
        exact ih

theorem Indexed.lookup {done : List (Nat × γ)} {done' : List (Nat × δ)}
    (indexed : Indexed T done done') (i : Nat) :
    Option.Rel T (List.lookup i done) (List.lookup i done') := by
  induction indexed with
  | nil => exact .none
  | @cons p q _ _ head _ ih =>
      obtain ⟨index, result⟩ := p
      obtain ⟨_, result'⟩ := q
      obtain ⟨rfl, both⟩ := head
      change Option.Rel T (List.lookup i ((index, _) :: _)) (List.lookup i ((index, _) :: _))
      by_cases here : i == index
      · simpa only [List.lookup_cons, here] using Option.Rel.some both
      · simpa only [List.lookup_cons, here] using ih

theorem scan_lockstep (schedule : Schedule) (alike : List.Forall₂ R all all')
    (step : ∀ a b, R a b → Lockstep Q (run a) (run' b) T) :
    Lockstep Q (scan schedule run all) (scan schedule run' all') (List.Forall₂ T) := by
  cases schedule with
  | sequential => exact Lockstep.compositional.mapM alike step
  | ordered order =>
      refine (visitAll_lockstep alike step order).bind fun done done' indexed => .pure ?_
      rw [alike.length_eq]
      refine List.rel_filterMap (R := Eq) ?_ (List.forall₂_same.mpr fun _ _ => rfl)
      rintro i _ rfl
      exact indexed.lookup i

end

section

variable {L : Judgement S}

theorem visit_related (keeps : G.Keeps L Bit.Alike) (g : Geometry)
    {rows rows' cols cols' data data' : Word C} {write write' : Bit C}
    (hr : rows.Alike rows') (hc : cols.Alike cols') (hd : data.Alike data')
    (hw : write.Alike write') {cell cell' : Word C × Nat} (alike : Cell.Alike cell cell') :
    L (visit G g rows cols data write cell) (visit G g rows' cols' data' write' cell')
      Visited.Alike := by
  obtain ⟨word, index⟩ := cell
  obtain ⟨word', _⟩ := cell'
  obtain ⟨words, rfl⟩ := alike
  have rules := keeps.rules
  apply rules.bind (rules.bit hr (index / g.cols))
  intro _ _ row
  apply rules.bind (rules.bit hc (index % g.cols))
  intro _ _ col
  apply rules.bind (keeps.and row col)
  intro _ _ hit
  apply rules.bind (rules.mapM words fun _ _ => keeps.and hit)
  intro _ _ masked
  apply rules.bind (keeps.and hit hw)
  intro _ _ store
  apply rules.bind (keeps.selectWord store hd words)
  intro _ _ new
  exact rules.pure ⟨masked, new⟩

theorem columns_related (keeps : G.Keeps L Bit.Alike) {visited visited' : List (Visited C)}
    (alike : List.Forall₂ Visited.Alike visited visited') (width : Nat) :
    L ((List.range width).mapM fun i => do
        let column ← visited.mapM fun v => v.masked.bit i
        G.xorAll column)
      ((List.range width).mapM fun i => do
        let column ← visited'.mapM fun v => v.masked.bit i
        G.xorAll column) (List.Forall₂ Bit.Alike) := by
  have rules := keeps.rules
  apply rules.loop
  intro i
  apply rules.bind (rules.mapM alike fun _ _ both => rules.bit both.masked i)
  intro _ _ column
  exact keeps.xorAll column

end

theorem access_lockstep (step : G.InStep Q) (schedule : Schedule) {m m' : Memory C}
    {address address' data data' fallback fallback' : Word C} {read read' : Bit C}
    (hm : m.Alike m') (ha : address.Alike address') (hd : data.Alike data')
    (hr : read.Alike read') (hf : fallback.Alike fallback') :
    Lockstep Q (m.access G schedule address data read fallback)
      (m'.access G schedule address' data' read' fallback') fun answer answer' =>
        answer.1.Alike answer'.1 ∧ answer.2.Alike answer'.2 := by
  obtain ⟨g, cells⟩ := m
  obtain ⟨_, cells'⟩ := m'
  obtain ⟨rfl, hm⟩ := hm
  unfold access
  apply Lockstep.compositional.guarded
  · rw [ha.width_eq]
  refine (step.matchPatterns _ (List.forall₂_take _ ha)).bind fun _ _ cols => ?_
  refine (step.matchPatterns _ (List.forall₂_drop _ ha)).bind fun _ _ rows => ?_
  refine (step.not hr).bind fun _ _ write => ?_
  refine (scan_lockstep schedule (forall₂_zipIdx hm)
    fun _ _ => visit_related step.keeps g rows cols hd write).bind fun _ _ visited => ?_
  rw [hf.width_eq]
  refine (columns_related step.keeps visited fallback'.width).bind fun _ _ bits => ?_
  refine (step.selectWord hr bits hf).bind fun _ _ answer => .pure ⟨answer, rfl, ?_⟩
  rw [List.forall₂_map_left_iff, List.forall₂_map_right_iff]
  exact visited.imp fun _ _ both => both.cell

end Memory

end CipherMachine
