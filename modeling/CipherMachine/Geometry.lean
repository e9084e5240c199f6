import CipherMachine.Fault

set_option autoImplicit false

/-!
The shape of the machine's memory: `2 ^ rowBits` rows of `2 ^ colBits` words.

An address holds the column in its low bits and the row above them. Addresses live in an
instruction's operand byte, so they have at most eight bits.
-/

namespace CipherMachine

/-- The widest address that fits the operand byte. -/
def maxAddressBits : Nat := 8

/-- A memory shape. Both dimensions have an address bit, and an address fits an operand. -/
structure Geometry where
  rowBits : Nat
  colBits : Nat
  rowBits_pos : 0 < rowBits
  colBits_pos : 0 < colBits
  fits_operand : rowBits + colBits ≤ maxAddressBits
  deriving DecidableEq

inductive GeometryError where
  /-- A dimension without address bits. -/
  | emptyDimension (rowBits colBits : Nat)
  /-- Addresses that would not fit the operand byte. -/
  | tooWide (addressBits : Nat)
  deriving DecidableEq

def GeometryError.message : GeometryError → String
  | .emptyDimension rowBits colBits =>
    s!"row and column bits must both be at least 1 (got {rowBits}x{colBits})"
  | .tooWide addressBits =>
    s!"{addressBits} address bits exceed the maximum of {maxAddressBits}"

namespace Geometry

/-- The shape with the given address bits. An empty dimension is reported before the width, and a
width of more than 32 bits cannot even be reported. -/
def make (rowBits colBits : UInt32) : Except Fault (Except GeometryError Geometry) :=
  let width := rowBits.toNat + colBits.toNat
  if positive : 0 < rowBits.toNat ∧ 0 < colBits.toNat then
    if width < UInt32.size then
      if fits : width ≤ maxAddressBits then
        .ok (.ok ⟨rowBits.toNat, colBits.toNat, positive.1, positive.2, fits⟩)
      else
        .ok (.error (.tooWide width))
    else
      .error .overflow
  else
    .ok (.error (.emptyDimension rowBits.toNat colBits.toNat))

def standard : Geometry :=
  ⟨4, 4, by decide, by decide, by decide⟩

instance : Inhabited Geometry := ⟨standard⟩

/-- Bits of an address, which is also the width of the program counter. -/
def addressBits (g : Geometry) : Nat := g.rowBits + g.colBits

def rows (g : Geometry) : Nat := Nat.pow 2 g.rowBits

/-- Words in a row. -/
def cols (g : Geometry) : Nat := Nat.pow 2 g.colBits

def capacity (g : Geometry) : Nat := g.rows * g.cols

/-- The word whose address bits are set and whose other bits are clear. -/
def addressMask (g : Geometry) : UInt16 := (1 <<< UInt16.ofNat g.addressBits) - 1

theorem addressBits_le (g : Geometry) : g.addressBits ≤ 8 := g.fits_operand

end Geometry

end CipherMachine
