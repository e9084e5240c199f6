import CipherMachine.Gates.Selection
import CipherMachine.Geometry

set_option autoImplicit false

/-!
Encrypted memory with an access that does not reveal its address.

An access visits every cell. Each visit evaluates the cell's address predicate, masks the cell's
word by it and replaces the cell, so the gates depend neither on the address nor on whether the
access reads or writes.

Visits of different cells do not depend on one another. `Memory.scan` makes them in address
order, `Memory.scanInOrder` in any order, with the results put back in address order.
-/

namespace CipherMachine

structure Memory (C : Type) where
  geometry : Geometry
  cells : List (Word C)

/-- What a visit leaves: the cell's word masked by the address predicate, and the new cell. -/
structure Visited (C : Type) where
  masked : Word C
  cell : Word C

/-- How the visits of an access are scheduled. -/
inductive Schedule where
  /-- In address order. -/
  | sequential
  /-- In the given order of cell indexes. -/
  | ordered (order : List Nat)

namespace Memory

variable {C S : Type}

/-- Visits the cell with the given index, writing `data` into it if it is addressed and `write` is
set. The cell's address predicate is that of its row and that of its column; cells of one row lie
together. -/
def visit (G : Gates C S) (g : Geometry) (rows cols data : Word C) (write : Bit C)
    (cell : Word C × Nat) : GateM S (Visited C) := do
  let (word, index) := cell
  let row ← rows.bit (index / g.cols)
  let col ← cols.bit (index % g.cols)
  let hit ← G.and row col
  let masked ← word.bits.mapM (G.and hit)
  let store ← G.and hit write
  let word ← G.selectWord store data word
  return ⟨⟨masked⟩, word⟩

/-- Makes the visits whose indexes `order` lists and pairs each result with its index. Indexes
without a visit are passed over. -/
def visitAll {α β : Type} (run : α → GateM S β) (all : List α) :
    List Nat → GateM S (List (Nat × β))
  | [] => return []
  | i :: rest =>
    match all[i]? with
    | some a => do
      let b ← run a
      let others ← visitAll run all rest
      return (i, b) :: others
    | none => visitAll run all rest

/-- Makes visits in the given order of indexes and returns the results by index. -/
def scanInOrder {α β : Type} (run : α → GateM S β) (order : List Nat) (all : List α) :
    GateM S (List β) := do
  let done ← visitAll run all order
  return (List.range all.length).filterMap fun i => List.lookup i done

/-- Makes visits as scheduled and returns the results in address order. -/
def scan {α β : Type} (schedule : Schedule) (run : α → GateM S β) (all : List α) :
    GateM S (List β) :=
  match schedule with
  | .sequential => all.mapM run
  | .ordered order => scanInOrder run order all

/-- Reads or writes one cell without revealing which. If `read` is set the answer is the word at
`address` and the memory is unchanged. Otherwise `data` is stored at `address` and the answer is
`fallback`. -/
def access (G : Gates C S) (schedule : Schedule) (m : Memory C) (address data : Word C)
    (read : Bit C) (fallback : Word C) : GateM S (Word C × Memory C) := do
  if address.width ≠ m.geometry.addressBits then throw .addressWidth
  let cols ← G.matchPatterns (address.bits.take m.geometry.colBits) (List.range m.geometry.cols)
  let rows ← G.matchPatterns (address.bits.drop m.geometry.colBits) (List.range m.geometry.rows)
  let write ← G.not read
  let visited ← scan schedule (visit G m.geometry ⟨rows⟩ ⟨cols⟩ data write) m.cells.zipIdx
  let bits ← (List.range fallback.width).mapM fun i => do
    let column ← visited.mapM fun v => v.masked.bit i
    G.xorAll column
  let answer ← G.selectWord read ⟨bits⟩ fallback
  return (answer, { m with cells := visited.map Visited.cell })

end Memory

end CipherMachine
