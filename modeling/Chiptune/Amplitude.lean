import Chiptune.Envelope

/-!
# Amplitudes

The two output levels of a voice that switches between high and low, and the
envelope that scales them. With the envelope disabled a note sounds at its full
level from the start and ends at once; with it enabled a note starts silent and
the levels follow the envelope, one change per cycle.
-/

set_option autoImplicit false

namespace Chiptune

/-- Levels per unit of velocity. -/
def levelPerVelocity : Int16 := 32

/-- The output levels of a voice and their envelope. -/
structure Amplitude where
  limit : Int16
  high : Int16
  low : Int16
  envelope : Envelope
  deriving DecidableEq, Repr

namespace Amplitude

/-- No level, and a fresh envelope. -/
def silent : Amplitude := ⟨0, 0, 0, Envelope.fresh⟩

/-- The level limit scaled by a factor and rounded. -/
def scaledLevel (limit : Int16) (factor : Fixed) : Int16 :=
  ((Fixed.ofInteger limit.toInt.natAbs.toUInt16).mul factor).toInteger.toInt16

/-- The start of a note. -/
def start (a : Amplitude) (velocity : UInt8) : Except Fault Amplitude := do
  let limit ← Checked.mulInt16 levelPerVelocity velocity.toUInt16.toInt16
  if a.envelope.enabled then
    return { limit, high := 0, low := 0, envelope := a.envelope.trigger }
  else
    return { a with limit, high := limit, low := -limit }

/-- The end of a note. -/
def stop (a : Amplitude) : Amplitude :=
  if a.envelope.enabled then { a with envelope := a.envelope.release }
  else { a with high := 0, low := 0 }

/-- The start of a cycle: a pending factor sets the levels. -/
def refresh (a : Amplitude) : Amplitude :=
  match a.envelope.takePending with
  | (none, _) => a
  | (some factor, envelope) =>
      let high := scaledLevel a.limit factor
      { a with high, low := -high, envelope }

/-- One modulation tick of an enabled envelope. -/
def modulate (a : Amplitude) : Except Fault Amplitude :=
  if a.envelope.enabled then return { a with envelope := ← a.envelope.step } else .ok a

/-- New envelope parameters. -/
def configureEnvelope (a : Amplitude) (params : EnvelopeParams) : Except Fault Amplitude :=
  return { a with envelope := ← a.envelope.configure params }

/-- The envelope switched on or off. -/
def setEnvelope (a : Amplitude) (enabled : Bool) : Amplitude :=
  { a with envelope := { a.envelope with enabled } }

end Amplitude

end Chiptune
