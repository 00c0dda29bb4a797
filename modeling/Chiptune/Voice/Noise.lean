import Chiptune.Amplitude
import Chiptune.BitSource

/-!
# Noise voice

The noise voice counts down from a prescaler; when the count has run out it
draws a bit that chooses between its two levels. Higher notes have a smaller
prescaler.
-/

set_option autoImplicit false

namespace Chiptune

/-- The state of the noise voice. -/
structure Noise where
  note : UInt8
  held : Bool
  prescaler : UInt8
  counter : UInt8
  isHigh : Bool
  amplitude : Amplitude
  deriving DecidableEq, Repr

namespace Noise

/-- A voice that never played. -/
def fresh : Noise where
  note := 0
  held := false
  prescaler := 0
  counter := 0
  isHigh := false
  amplitude := Amplitude.silent

/-- The start of a note. Notes from 128 on count from zero again. -/
def noteOn (s : Noise) (note velocity : UInt8) : Except Fault Noise := do
  let note := note &&& 0x7F
  let prescaler ← Checked.sub8 128 note
  let amplitude ← s.amplitude.start velocity
  return { s with note, held := true, prescaler, counter := prescaler, amplitude }

/-- The end of a note. -/
def noteOff (s : Noise) : Noise :=
  { s with held := false, amplitude := s.amplitude.stop }

/-- The envelope part of a modulation tick. -/
def modulateEnvelope (s : Noise) : Except Fault Noise :=
  return { s with amplitude := ← s.amplitude.modulate }

/-- The level that the last bit chose. -/
def output (s : Noise) : Int16 := if s.isHigh then s.amplitude.high else s.amplitude.low

/-- One sample. -/
def next {ρ : Type} [BitSource ρ] (s : Noise) (source : ρ) :
    Except Fault (Int16 × Noise × ρ) := do
  if s.counter = 0 then
    let (bit, source) := BitSource.draw source
    let s := { s with counter := s.prescaler, isHigh := bit, amplitude := s.amplitude.refresh }
    return (s.output, s, source)
  else
    let counter ← Checked.sub8 s.counter 1
    return (s.output, { s with counter }, source)

/-- Carries out an action. The noise has no duty and no vibrato. -/
def perform (s : Noise) : Action → Except Fault Noise
  | .noteOn note velocity => s.noteOn note velocity
  | .noteOff => .ok s.noteOff
  | .configureEnvelope params =>
      return { s with amplitude := ← s.amplitude.configureEnvelope params }
  | .envelopeOn => .ok { s with amplitude := s.amplitude.setEnvelope true }
  | .envelopeOff => .ok { s with amplitude := s.amplitude.setEnvelope false }
  | .setDuty _ | .configureVibrato _ | .vibratoOn | .vibratoOff => .ok s

end Noise

end Chiptune
