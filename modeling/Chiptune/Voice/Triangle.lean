import Chiptune.Amplitude
import Chiptune.Phase
import Chiptune.Tuning

/-!
# Triangle voice

The triangle climbs from its low level up to the edge of its cycle and falls
from there to the end, where it is put back to the low level. Its steps are
integers; putting it back keeps their rounding from adding up over cycles.
-/

set_option autoImplicit false

namespace Chiptune

/-- The state of the triangle voice. The vibrato flag is stored and has no
effect. -/
structure Triangle where
  note : UInt8
  held : Bool
  velocity : UInt8
  vibratoFlag : Bool
  phase : Phase
  up : Int16
  down : Int16
  current : Int16
  low : Int16
  rising : Bool
  deriving DecidableEq, Repr

namespace Triangle

/-- The sum, kept within the range of samples. -/
def saturatingAdd (a b : Int16) : Int16 :=
  Int16.ofInt (max (-32768) (min 32767 (a.toInt + b.toInt)))

/-- The step per sample that covers `swing` over a span of samples, at most
32767. A span of zero gets a step of zero. -/
def rampStep (swing : UInt16) (span : Fixed) : Int16 :=
  match (Fixed.ofInteger swing).div? span with
  | some step => Int16.ofNat (min step.toInteger.toNat 32767)
  | none => 0

/-- A voice that never played. -/
def fresh (duty : UInt8) : Triangle where
  note := 0
  held := false
  velocity := 0
  vibratoFlag := false
  phase := Phase.idle duty
  up := 0
  down := 0
  current := 0
  low := 0
  rising := true

/-- The steps for the velocity and the phase. -/
def placeRamps (s : Triangle) : Except Fault Triangle := do
  let swing ← Checked.mul16 s.velocity.toUInt16 32
  return { s with
    up := rampStep swing s.phase.edge
    down := -rampStep swing (s.phase.period.monus s.phase.edge) }

/-- The start of a note. -/
def noteOn (s : Triangle) (t : Tuning) (note velocity : UInt8) : Except Fault Triangle := do
  let low ← Checked.mulInt16 (-16) velocity.toUInt16.toInt16
  let phase ← s.phase.restart (t.period note)
  placeRamps { s with note, velocity, low, phase, rising := true, current := low, held := true }

/-- The end of a note: the ramps are flat and the next cycle starts at zero. -/
def noteOff (s : Triangle) : Triangle :=
  { s with held := false, low := 0, up := 0, down := 0 }

/-- A new duty, with the steps of the last velocity. -/
def setDuty (s : Triangle) (duty : UInt8) : Except Fault Triangle := do
  placeRamps { s with phase := ← s.phase.setDuty duty }

/-- One sample. A voice that never played holds still. -/
def next (s : Triangle) : Except Fault (Int16 × Triangle) := do
  if s.phase.period = Fixed.zero then return (s.current, s)
  else
    let phase ← s.phase.advance
    if s.rising then
      let current := saturatingAdd s.current s.up
      return (current, { s with phase, current, rising := decide (phase.time < phase.edge) })
    else if phase.time < phase.period then
      let current := saturatingAdd s.current s.down
      return (current, { s with phase, current })
    else
      let wrapped ← phase.wrap
      return (s.low, { s with phase := wrapped, current := s.low, rising := true })

/-- Carries out an action. The triangle has no envelope, and of a vibrato only
the flag. -/
def perform (s : Triangle) (t : Tuning) : Action → Except Fault Triangle
  | .noteOn note velocity => s.noteOn t note velocity
  | .noteOff => .ok s.noteOff
  | .setDuty duty => s.setDuty duty
  | .vibratoOn => .ok { s with vibratoFlag := true }
  | .vibratoOff => .ok { s with vibratoFlag := false }
  | .configureVibrato _ | .configureEnvelope _ | .envelopeOn | .envelopeOff => .ok s

end Triangle

end Chiptune
