import CipherMachine.Scheme
import CipherMachine.Word

set_option autoImplicit false

/-!
Gates on encrypted bits.

`Gates` is a scheme whose noise budget admits at least a conjunction of fresh ciphertexts.
Its operations track the noise estimate of every bit and count every gate. Before a gate whose
output would exceed the budget, operands are refreshed as `NoiseModel.plan` says.

An operation runs in `GateM`: it threads the scheme's state and the counters, and keeps both when
it faults.
-/

namespace CipherMachine

/-- How many gates of each kind were evaluated, and how many ciphertexts refreshed. -/
structure GateStats where
  and : Nat := 0
  xor : Nat := 0
  not : Nat := 0
  refresh : Nat := 0
  deriving DecidableEq, Repr, Inhabited

namespace GateStats

/-- Gates of all kinds. Refreshes are no gates. -/
def total (s : GateStats) : Nat := s.and + s.xor + s.not

/-- What was counted after `earlier` was taken. -/
def since (s earlier : GateStats) : GateStats where
  and := s.and - earlier.and
  xor := s.xor - earlier.xor
  not := s.not - earlier.not
  refresh := s.refresh - earlier.refresh

def text (s : GateStats) : String :=
  s!"#[~: {s.refresh}, &: {s.and}, ^: {s.xor}, !: {s.not}]"

def describe (s : GateStats) : String :=
  "GateStats \x7b " ++ s!"and: {s.and}, xor: {s.xor}, not: {s.not}, refresh: {s.refresh}" ++
    " \x7d"

end GateStats

/-- A scheme's state together with the counters of the gates evaluated on it. -/
structure Session (S : Type) where
  state : S
  stats : GateStats := {}

abbrev GateM (S : Type) : Type → Type := ExceptT Fault (StateM (Session S))

namespace GateM

variable {S α : Type}

/-- Runs a computation. The session that it leaves is there also after a fault. -/
def exec (m : GateM S α) (s : Session S) : Except Fault α × Session S :=
  (ExceptT.run m) s

@[inline]
def stats : GateM S GateStats := do
  return (← get).stats

@[inline]
def call {C : Type} (operation : S → Option (C × S)) : GateM S C := do
  let s ← get
  match operation s.state with
  | some (cipher, state) =>
    set { s with state := state }
    return cipher
  | none => throw .exhausted

@[inline]
def count (f : GateStats → GateStats) : GateM S Unit :=
  modify fun s => { s with stats := f s.stats }

/-- A computation's result with what it added to the counters. -/
def metered (m : GateM S α) : GateM S (α × GateStats) := do
  let before ← stats
  let a ← m
  let after ← stats
  return (a, after.since before)

end GateM

/-- A scheme that can evaluate circuits of any size. -/
structure Gates (C S : Type) where
  scheme : Scheme C S
  workable : scheme.noise.Workable

namespace Gates

variable {C S : Type}

/-- The gates of a scheme, if its budget is workable. -/
def ofScheme (scheme : Scheme C S) : Except Fault (Gates C S) :=
  if workable : scheme.noise.Workable then
    .ok ⟨scheme, workable⟩
  else
    .error (.unworkableBudget scheme.noise.budget scheme.noise.freshAnd)

def noise (G : Gates C S) : NoiseModel := G.scheme.noise

def encrypt (G : Gates C S) (bit : Bool) : GateM S (Bit C) := do
  return ⟨← GateM.call (G.scheme.encrypt bit), G.noise.fresh⟩

def decrypt (G : Gates C S) (bit : Bit C) : Bool := G.scheme.decrypt bit.cipher

def refresh (G : Gates C S) (bit : Bit C) : GateM S (Bit C) := do
  GateM.count fun s => { s with refresh := s.refresh + 1 }
  return ⟨← GateM.call (G.scheme.refresh bit.cipher), G.noise.fresh⟩

def refreshSide (G : Gates C S) (operands : Bit C × Bit C) : Side → GateM S (Bit C × Bit C)
  | .left => do return (← G.refresh operands.1, operands.2)
  | .right => do return (operands.1, ← G.refresh operands.2)

/-- The operands of a gate, refreshed as far as the budget requires. -/
@[inline]
def fit (G : Gates C S) (kind : GateKind) (left right : Bit C) : GateM S (Bit C × Bit C) :=
  (G.noise.plan kind left.noise right.noise).foldlM G.refreshSide (left, right)

/-- The input of a negation, refreshed if the budget requires it. -/
@[inline]
def fitInput (G : Gates C S) (input : Bit C) : GateM S (Bit C) :=
  if G.noise.refreshesInput input.noise then G.refresh input else return input

/-- Evaluates a gate on operands that fit, with the given estimate for its output. -/
@[inline]
def eval (G : Gates C S) (gate : Gate C) (noise : Nat) : GateM S (Bit C) := do
  return ⟨← GateM.call fun state => some (G.scheme.eval gate state), noise⟩

def not (G : Gates C S) (input : Bit C) : GateM S (Bit C) := do
  let input ← G.fitInput input
  GateM.count fun s => { s with not := s.not + 1 }
  G.eval (.not input.cipher) (G.noise.growth .not input.noise 0)

def and (G : Gates C S) (left right : Bit C) : GateM S (Bit C) := do
  let (left, right) ← G.fit .and left right
  GateM.count fun s => { s with and := s.and + 1 }
  G.eval (.and left.cipher right.cipher) (G.noise.growth .and left.noise right.noise)

def xor (G : Gates C S) (left right : Bit C) : GateM S (Bit C) := do
  let (left, right) ← G.fit .xor left right
  GateM.count fun s => { s with xor := s.xor + 1 }
  G.eval (.xor left.cipher right.cipher) (G.noise.growth .xor left.noise right.noise)

/-- Disjunction: the exclusive disjunction of the operands' exclusive disjunction and their
conjunction. -/
def or (G : Gates C S) (left right : Bit C) : GateM S (Bit C) := do
  let sum ← G.xor left right
  let carry ← G.and left right
  G.xor sum carry

/-- The word of the lowest `width` binary digits of a number. -/
def encryptWord (G : Gates C S) (value width : Nat) : GateM S (Word C) := do
  if 64 < width then throw .wordTooWide
  let bits ← (List.range width).mapM fun i => G.encrypt (value.testBit i)
  return ⟨bits⟩

/-- The bits of a word, the least significant one first. -/
def decryptBits (G : Gates C S) (word : Word C) : List Bool :=
  word.bits.map G.decrypt

/-- The number whose binary digits a word holds. -/
def value (G : Gates C S) (word : Word C) : Nat :=
  binaryValue (G.decryptBits word)

/-- The number in a word that is narrow enough for one. -/
def decryptWord (G : Gates C S) (word : Word C) : Except Fault Nat :=
  if word.width ≤ 64 then .ok (G.value word) else .error .wordTooWide

end Gates

end CipherMachine
