import Chiptune.Amplitude
import Chiptune.Phase
import Chiptune.Tuning
import Chiptune.Vibrato

/-!
# Square voices

A square voice is low up to the edge of its cycle and high from there to the
end. New levels and a new cycle begin together.
-/

set_option autoImplicit false

namespace Chiptune

/-- The state of a square voice. -/
structure Square where
  note : UInt8
  held : Bool
  phase : Phase
  isHigh : Bool
  amplitude : Amplitude
  vibrato : Vibrato
  deriving DecidableEq, Repr

namespace Square

/-- A voice that never played. -/
def fresh (duty : UInt8) : Square where
  note := 0
  held := false
  phase := Phase.idle duty
  isHigh := false
  amplitude := Amplitude.silent
  vibrato := Vibrato.fresh

/-- The start of a note. An enabled vibrato starts over around its period. -/
def noteOn (s : Square) (t : Tuning) (note velocity : UInt8) : Except Fault Square := do
  let phase ← s.phase.restart (t.period note)
  let vibrato ←
    if s.vibrato.enabled then Vibrato.configured s.vibrato.params phase.period
    else pure s.vibrato
  let amplitude ← s.amplitude.start velocity
  return { note, held := true, phase, isHigh := false, amplitude, vibrato }

/-- The end of a note. -/
def noteOff (s : Square) : Square :=
  { s with held := false, amplitude := s.amplitude.stop }

def setDuty (s : Square) (duty : UInt8) : Except Fault Square :=
  return { s with phase := ← s.phase.setDuty duty }

/-- Vibrato with new parameters around the current note. -/
def configureVibrato (s : Square) (t : Tuning) (params : VibratoParams) :
    Except Fault Square :=
  return { s with vibrato := ← Vibrato.configured params (t.period s.note) }

/-- Vibrato with the stored parameters around the current note. -/
def vibratoOn (s : Square) (t : Tuning) : Except Fault Square :=
  s.configureVibrato t s.vibrato.params

/-- The vibrato stops and the period is that of the note. -/
def vibratoOff (s : Square) (t : Tuning) : Except Fault Square :=
  return { s with
    vibrato := { s.vibrato with enabled := false }
    phase := ← s.phase.setPeriod (t.period s.note) }

/-- One modulation tick of the vibrato. -/
def stepVibrato (s : Square) : Except Fault Square := do
  let (period, vibrato) ← s.vibrato.step s.phase.period
  return { s with vibrato, phase := ← s.phase.setPeriod period }

/-- The vibrato part of a modulation tick. -/
def modulateVibrato (s : Square) : Except Fault Square :=
  if s.vibrato.enabled then s.stepVibrato else .ok s

/-- The envelope part of a modulation tick. -/
def modulateEnvelope (s : Square) : Except Fault Square :=
  return { s with amplitude := ← s.amplitude.modulate }

/-- One sample. A voice that never played holds still. -/
def next (s : Square) : Except Fault (Int16 × Square) := do
  if s.phase.period = Fixed.zero then return (s.amplitude.low, s)
  else
    let phase ← s.phase.advance
    if !s.isHigh then
      return (s.amplitude.low, { s with phase, isHigh := decide (phase.edge ≤ phase.time) })
    else if phase.time < phase.period then
      return (s.amplitude.high, { s with phase })
    else
      let wrapped ← phase.wrap
      return (s.amplitude.high,
        { s with phase := wrapped, isHigh := false, amplitude := s.amplitude.refresh })

/-- Carries out an action. -/
def perform (s : Square) (t : Tuning) : Action → Except Fault Square
  | .noteOn note velocity => s.noteOn t note velocity
  | .noteOff => .ok s.noteOff
  | .setDuty duty => s.setDuty duty
  | .configureVibrato params => s.configureVibrato t params
  | .vibratoOn => s.vibratoOn t
  | .vibratoOff => s.vibratoOff t
  | .configureEnvelope params =>
      return { s with amplitude := ← s.amplitude.configureEnvelope params }
  | .envelopeOn => .ok { s with amplitude := s.amplitude.setEnvelope true }
  | .envelopeOff => .ok { s with amplitude := s.amplitude.setEnvelope false }

end Square

end Chiptune
