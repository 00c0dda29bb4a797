/-!
# Faults

A computation on machine words stops with a fault when a result leaves its
word, when a divisor is zero, or when a sample ring is misused. A fault is a
cause; `Fault.message` is its only text.
-/

set_option autoImplicit false

namespace Chiptune

/-- Why a computation stopped. -/
inductive Fault where
  | addOverflow
  | subOverflow
  | mulOverflow
  | divideByZero
  | remainderByZero
  | ringFull
  | ringEmpty
  | cellOutOfRange (capacity index : Nat)
  deriving DecidableEq, Repr

/-- The text of a fault. -/
def Fault.message : Fault → String
  | .addOverflow => "attempt to add with overflow"
  | .subOverflow => "attempt to subtract with overflow"
  | .mulOverflow => "attempt to multiply with overflow"
  | .divideByZero => "attempt to divide by zero"
  | .remainderByZero => "attempt to calculate the remainder with a divisor of zero"
  | .ringFull => "push into full sample ring"
  | .ringEmpty => "pop from empty sample ring"
  | .cellOutOfRange capacity index =>
      s!"index out of bounds: the len is {capacity} but the index is {index}"

end Chiptune
