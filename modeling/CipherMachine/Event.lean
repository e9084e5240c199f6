import CipherMachine.Cycle
import CipherMachine.Registers

set_option autoImplicit false

/-!
Events: what the machine reports while it is loaded and run.
-/

namespace CipherMachine

/-- A report with the values that it carries. -/
inductive Event where
  | loaded (rows cols : Nat) (parallel : Bool)
  /-- A phase of the cycle with the given index, counted from zero. -/
  | phaseComplete (cycle : Nat) (cost : PhaseCost)
  /-- The end of the cycle with the given number, counted from one. -/
  | cycleComplete (cycle : Nat) (gates : GateStats)
  /-- The decrypted registers after a cycle, the accumulator's bits from the highest one down,
  and its largest noise estimate. -/
  | registers (cycle : Nat) (plain : Registers) (acBits : List Bool) (noise : Nat)
  | running (cycles : Nat)
  | stopRequested (completed : Nat)
  | runFinished (cycles : Nat) (stats : GateStats)
  deriving DecidableEq

def bitString (bits : List Bool) : String :=
  String.ofList (bits.map fun bit => if bit then '1' else '0')

/-- The line of an event: its level, its name and its fields. -/
def Event.text : Event → String
  | .loaded rows cols parallel =>
    s!"INFO machine loaded rows={rows} cols={cols} parallel={parallel}"
  | .phaseComplete cycle ⟨phase, used⟩ =>
    s!"DEBUG phase complete cycle={cycle} phase={phase.name} and={used.and} xor={used.xor} " ++
      s!"not={used.not} refresh={used.refresh}"
  | .cycleComplete cycle gates =>
    s!"DEBUG cycle complete cycle={cycle} gates={gates.text}"
  | .registers cycle plain acBits noise =>
    s!"DEBUG registers cycle={cycle} registers={plain.text} " ++
      s!"ac_bits={bitString acBits} noise={noise}"
  | .running cycles => s!"INFO running cycles={cycles}"
  | .stopRequested completed => s!"INFO stop requested completed={completed}"
  | .runFinished cycles stats => s!"INFO run finished cycles={cycles} stats={stats.text}"

end CipherMachine
