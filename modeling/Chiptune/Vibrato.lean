import Chiptune.Command
import Chiptune.Fixed

/-!
# Vibrato

A vibrato lengthens a period by a fixed amount on each modulation tick of half
a cycle, shortens it again in the other half, and puts it back to the base
period at the end, so that rounding does not add up over cycles.
-/

set_option autoImplicit false

namespace Chiptune

/-- The relative period change of one cent, scaled by `2 ^ 32`. -/
def centRatio : UInt64 := 2410580

/-- The state of a vibrato. -/
structure Vibrato where
  enabled : Bool
  params : VibratoParams
  rising : Bool
  time : Fixed
  halfPeriod : Fixed
  fullPeriod : Fixed
  delta : Fixed
  base : Fixed
  deriving DecidableEq, Repr

namespace Vibrato

/-- A vibrato that was never configured. It leaves every period as it is. -/
def fresh : Vibrato where
  enabled := false
  params := ⟨0, 0⟩
  rising := false
  time := Fixed.zero
  halfPeriod := Fixed.zero
  fullPeriod := Fixed.zero
  delta := Fixed.zero
  base := Fixed.zero

/-- The depth in cents as a fraction of the period. -/
def depthRatio (depth : UInt8) : Fixed := ⟨((depth.toUInt64 * centRatio) >>> 16).toUInt32⟩

/-- An enabled vibrato with the given parameters at the start of a cycle around
the base period. -/
def configured (params : VibratoParams) (base : Fixed) : Except Fault Vibrato := do
  let halfPeriod ← Fixed.one.times params.steps
  let fullPeriod ← halfPeriod.times 2
  let delta ← (base.mul (depthRatio params.depth)).divBy params.steps
  return {
    enabled := true
    params := ⟨min params.rate parameterLimit, params.depth⟩
    rising := true
    time := Fixed.zero
    halfPeriod, fullPeriod, delta, base }

/-- One modulation tick: the new period and the new state. -/
def step (v : Vibrato) (period : Fixed) : Except Fault (Fixed × Vibrato) := do
  if v.fullPeriod = Fixed.zero then return (period, v)
  else
    let time ← v.time.add Fixed.one
    if v.rising then
      return (← period.add v.delta, { v with time, rising := decide (time < v.halfPeriod) })
    else if v.fullPeriod ≤ time then
      return (v.base, { v with time := ← time.sub v.fullPeriod, rising := true })
    else
      return (period.monus v.delta, { v with time })

end Vibrato

end Chiptune
