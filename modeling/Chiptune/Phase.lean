import Chiptune.Fixed

/-!
# Phases

The phase of a voice with a pitch: how far it is in its cycle, how long the
cycle is, and where in the cycle the duty places the edge.
-/

set_option autoImplicit false

namespace Chiptune

/-- A position in a cycle of length `period` with an edge at `edge`. -/
structure Phase where
  duty : UInt8
  time : Fixed
  period : Fixed
  edge : Fixed
  deriving DecidableEq, Repr

namespace Phase

/-- The edge at `duty` 255ths of a period. -/
def dutyEdge (period : Fixed) (duty : UInt8) : Except Fault Fixed := do
  (← period.divBy 255).times duty.toUInt32

/-- A phase without a period. -/
def idle (duty : UInt8) : Phase := ⟨duty, Fixed.zero, Fixed.zero, Fixed.zero⟩

/-- A new period, with the edge placed again. -/
def setPeriod (p : Phase) (period : Fixed) : Except Fault Phase :=
  return { p with period, edge := ← dutyEdge period p.duty }

/-- A new duty, with the edge placed again. -/
def setDuty (p : Phase) (duty : UInt8) : Except Fault Phase :=
  return { p with duty, edge := ← dutyEdge p.period duty }

/-- The start of the first cycle with a period. -/
def restart (p : Phase) (period : Fixed) : Except Fault Phase :=
  { p with time := Fixed.zero }.setPeriod period

/-- One sample later. -/
def advance (p : Phase) : Except Fault Phase :=
  return { p with time := ← p.time.add Fixed.one }

/-- The whole periods taken off the time. A period below two samples may be
contained more than once. -/
def wrap (p : Phase) : Except Fault Phase :=
  return { p with time := ← p.time.rem p.period }

end Phase

end Chiptune
