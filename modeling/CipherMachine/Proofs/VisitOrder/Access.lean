import CipherMachine.Proofs.Cost.Memory
import CipherMachine.Proofs.IntegerCorrectness
import CipherMachine.Proofs.Lockstep.Memory
import CipherMachine.Proofs.PlainBit
import CipherMachine.Proofs.VisitOrder.Matched

set_option autoImplicit false

/-!
The order in which an access visits cells does not matter.

Visits share the counters and the scheme's randomness. A visit adds the same to the counters
wherever it comes in the order, and leaves the same estimates, so only sums over all visits are
seen. The values are those of an array access, in whatever order.
-/

namespace CipherMachine

open GateM

variable {C S : Type}

namespace Memory

section

variable {α β : Type} {run : α → GateM S β} {T : β → β → Prop} {all : List α}

/-- Scans that visit every element once, in any two orders. -/
theorem scan_matched {schedule schedule' : Schedule} (once : schedule.Enumerates all.length)
    (once' : schedule'.Enumerates all.length) (step : ∀ a, Matched (run a) (run a) T) :
    Matched (scan schedule run all) (scan schedule' run all) (List.Forall₂ T) := by
  have priced : ∀ a, ∃ cost, Spends GateStats.counters (run a) cost (run a).Answers :=
    fun a => (step a).spends
  choose price spends using priced
  -- A visit's cost is known without its place in the order, and a scan's is the sum of them.
  have left := scan_spends (T := fun b a => (run a).Answers b) once fun a _ => spends a
  have right := scan_spends (T := fun b a => (run a).Answers b) once' fun a _ => spends a
  apply Matched.of_spends left right
  intro bs bs' answers answers'
  exact forall₂_join answers answers' fun b b' a first second => (step a).answers first second

end

theorem access_level (G : Gates C S) {m : Memory C} {schedule schedule' : Schedule}
    (size : m.cells.length = m.geometry.capacity) (once : schedule.Enumerates m.geometry.capacity)
    (once' : schedule'.Enumerates m.geometry.capacity) (address data : Word C) (read : Bit C)
    (fallback : Word C) :
    Level (m.access G schedule address data read fallback)
      (m.access G schedule' address data read fallback)
      fun answer answer' => answer.1.Alike answer'.1 ∧ answer.2.Alike answer'.2 := by
  unfold access
  apply Level.guarded
  intro addressed
  obtain ⟨low, high⟩ := length_address addressed
  apply Level.after (G.decoder_spends low)
  intro cols _
  apply Level.after (G.decoder_spends high)
  intro rows _
  apply Level.after (G.not_spends read)
  intro write _
  rw [← size, ← List.length_zipIdx] at once once'
  -- So far both sides have made the same steps. From the first visit on they may find different
  -- randomness, and only what they answer and count is compared.
  apply Matched.level
  have keeps := G.matched_keeps
  have visits : ∀ cell, Matched (visit G m.geometry ⟨rows⟩ ⟨cols⟩ data write cell)
      (visit G m.geometry ⟨rows⟩ ⟨cols⟩ data write cell) Visited.Alike :=
    fun cell => visit_related keeps m.geometry (.refl _) (.refl _) (.refl data) rfl (.refl cell)
  apply (scan_matched once once' visits).bind
  intro visited visited' alike
  apply (columns_related keeps alike fallback.width).bind
  intro bits bits' column
  have selected := keeps.selectWord (a := read) (b := read) (v := ⟨bits⟩) (w := ⟨bits'⟩) rfl
    column (Word.Alike.refl fallback)
  apply selected.bind
  intro answer answer' word
  apply Matched.pure
  refine ⟨word, rfl, ?_⟩
  rw [List.forall₂_map_left_iff, List.forall₂_map_right_iff]
  exact alike.imp fun _ _ both => both.cell

/-- An access of an array. A read gives what lies at the place and changes nothing; a write puts
`data` there and gives the fallback. -/
def arrayAccess {α : Type} (array : List α) (place : Nat) (data : α) (read : Bool)
    (fallback : α) : α × List α :=
  if read then (array.getD place fallback, array) else (fallback, array.set place data)

theorem arrayAccess_map {α β : Type} (f : α → β) (array : List α) (place : Nat) (data : α)
    (read : Bool) (fallback : α) :
    arrayAccess (array.map f) place (f data) read (f fallback) =
      Prod.map f (List.map f) (arrayAccess array place data read fallback) := by
  cases read with
  | true => simp [arrayAccess]
  | false => simp [arrayAccess, List.map_set]

/-- The operands of an access have the right widths. -/
structure Operands (m : Memory C) (address data fallback : Word C) (width : Nat) : Prop where
  size : m.cells.length = m.geometry.capacity
  cells : ∀ cell ∈ m.cells, cell.width = width
  address : address.width = m.geometry.addressBits
  data : data.width = width
  fallback : fallback.width = width

def operandBits (m : Memory C) (address data : Word C) (read : Bit C) (fallback : Word C) :
    List (Bit C) :=
  m.cells.flatMap Word.bits ++ (address.bits ++ (data.bits ++ read :: fallback.bits))

/-- The estimates and the decrypted values of a word and a memory are those of others. -/
structure Same (G : Gates C S) (answer answer' : Word C × Memory C) : Prop where
  word : answer.1.Alike answer'.1
  memory : answer.2.Alike answer'.2
  wordBits : G.decryptBits answer.1 = G.decryptBits answer'.1
  memoryBits : answer.2.cells.map G.decryptBits = answer'.2.cells.map G.decryptBits

section

variable {G : Gates C S} {reads : Bit C → Bool → Prop} {dry : S → Prop} {m : Memory C}
  {address data fallback : Word C} {read : Bit C} {width : Nat}

theorem value_lt_capacity (G : Gates C S) {g : Geometry} (same : address.width = g.addressBits) :
    G.value address < g.capacity := by
  have below := G.value_lt address
  rw [g.capacity_eq, ← same]
  exact below

/-- What an access answers, bit by bit, by any schedule that leaves out no cell. -/
theorem access_decrypts (hom : G.Homomorphic reads dry) (opens : G.Opens reads)
    (operands : m.Operands address data fallback width)
    (legible : ∀ b ∈ m.operandBits address data read fallback, ∃ x, reads b x)
    (schedule : Schedule) (covers : schedule.Covers m.geometry.capacity) :
    (m.access G schedule address data read fallback).Yields dry fun answer =>
      answer.2.geometry = m.geometry ∧
        (G.decryptBits answer.1, answer.2.cells.map G.decryptBits) =
          arrayAccess (m.cells.map G.decryptBits) (G.value address) (G.decryptBits data)
            (G.decrypt read) (G.decryptBits fallback) := by
  simp only [operandBits, List.mem_append, List.mem_cons, List.mem_flatMap] at legible
  have within := value_lt_capacity G operands.address
  have ha := opens.holds_value (fun b held => legible b (.inr (.inl held))) operands.address
  have hd := opens.holds_value (fun b held => legible b (.inr (.inr (.inl held)))) operands.data
  obtain ⟨x, hr⟩ := legible read (.inr (.inr (.inr (.inl rfl))))
  have hf := opens.holds_value (fun b held => legible b (.inr (.inr (.inr (.inr held)))))
    operands.fallback
  have cells : List.Forall₂ (fun cell n => Word.Holds reads cell width n) m.cells
      (m.cells.map G.value) := by
    rw [List.forall₂_map_right_iff, List.forall₂_same]
    intro cell member
    exact opens.holds_value (fun b held => legible b (.inl ⟨cell, member, held⟩))
      (operands.cells cell member)
  have size : (m.cells.map G.value).length = m.geometry.capacity :=
    (List.length_map _).trans operands.size
  have contents : (m.cells.map G.value).map (binaryDigits width) = m.cells.map G.decryptBits := by
    rw [List.map_map]
    exact List.map_congr_left fun cell member => G.binaryDigits_value (operands.cells cell member)
  apply (access_yields hom covers size within cells ha hd hr hf).mono
  rintro answer ⟨word, geometry, memory⟩
  refine ⟨geometry, ?_⟩
  have opened := memory.imp fun _ _ held => opens.decryptBits held
  rw [← List.forall₂_map_right_iff, ← List.forall₂_map_left_iff, List.forall₂_eq_eq_eq] at opened
  rw [opens hr, ← contents, ← G.binaryDigits_value operands.data,
    ← G.binaryDigits_value operands.fallback, arrayAccess_map, opens.decryptBits word, opened]
  -- An address within the memory needs no default.
  have named : G.value address < (m.cells.map G.value).length := size ▸ within
  have found : (m.cells.map G.value).getD (G.value address) 0 =
      (m.cells.map G.value).getD (G.value address) (G.value fallback) := by
    rw [List.getD_eq_getElem _ _ named, List.getD_eq_getElem _ _ named]
  cases x with
  | true =>
      rw [if_pos rfl, if_pos rfl, found]
      rfl
  | false => rfl

end

end Memory

/-- Both runs answer or run out of randomness. Where both answer, the answers are related, and the
runs leave the same counters. -/
structure SameUnlessDry {α : Type} (dry : Prop) (T : α → α → Prop)
    (run run' : Except Fault α × Session S) : Prop where
  first : Outcome (Exhausted dry) (fun _ => True) run.1
  second : Outcome (Exhausted dry) (fun _ => True) run'.1
  answers : ∀ a b, run.1 = .ok a → run'.1 = .ok b → T a b ∧ run.2.stats = run'.2.stats

namespace Memory

variable {G : Gates C S} {reads : Bit C → Bool → Prop} {dry : S → Prop} {m : Memory C}
  {address data fallback : Word C} {read : Bit C} {width : Nat} {order : List Nat}

theorem access_reordered (hom : G.Homomorphic reads dry) (opens : G.Opens reads)
    (operands : m.Operands address data fallback width)
    (legible : ∀ b ∈ m.operandBits address data read fallback, ∃ x, reads b x)
    (once : order.Perm (List.range m.geometry.capacity)) (s : Session S) :
    SameUnlessDry (∃ state, dry state) (Same G)
      ((m.access G .sequential address data read fallback).exec s)
      ((m.access G (.ordered order) address data read fallback).exec s) := by
  have enumerates : Schedule.Enumerates m.geometry.capacity (.ordered order) := once
  have sequential : Schedule.Enumerates m.geometry.capacity .sequential := trivial
  have level := access_level G operands.size sequential enumerates address data read fallback
  have answers := access_decrypts hom opens operands legible
  have first := answers .sequential trivial s
  have second := answers (.ordered order) enumerates.covers s
  refine ⟨?_, ?_, ?_⟩
  · exact first.imp (fun _ dry => ⟨dry.1, _, dry.2⟩) fun _ _ => trivial
  · exact second.imp (fun _ dry => ⟨dry.1, _, dry.2⟩) fun _ _ => trivial
  · intro a b left right
    rw [left] at first
    rw [right] at second
    obtain ⟨alike, counters⟩ := level (Prod.ext left rfl) (Prod.ext right rfl)
    obtain ⟨word, cells⟩ := Prod.mk.inj (first.2.trans second.2.symm)
    exact ⟨⟨alike.1, alike.2, word, cells⟩, counters⟩

end Memory

end CipherMachine
