import Chiptune.Channel

/-!
# Commands

A command releases every channel or gives one numbered channel an action. The
number may belong to no channel; such a command is carried along and has no
effect. An event is a command with the index of the sample it precedes.
-/

set_option autoImplicit false

namespace Chiptune

/-- The upper bound of envelope parameters and of the vibrato rate. -/
def parameterLimit : UInt8 := 127

/-- Envelope times in modulation ticks and the sustain level in 127ths. -/
structure EnvelopeParams where
  attack : UInt8
  decay : UInt8
  sustain : UInt8
  release : UInt8
  deriving DecidableEq, Repr, Inhabited

/-- Every parameter cut to the limit. -/
def EnvelopeParams.clamped (p : EnvelopeParams) : EnvelopeParams where
  attack := min p.attack parameterLimit
  decay := min p.decay parameterLimit
  sustain := min p.sustain parameterLimit
  release := min p.release parameterLimit

/-- Vibrato speed and its depth in cents. -/
structure VibratoParams where
  rate : UInt8
  depth : UInt8
  deriving DecidableEq, Repr, Inhabited

/-- The modulation ticks in half a vibrato cycle, between 1 and 128. -/
def VibratoParams.steps (p : VibratoParams) : UInt32 :=
  128 - (min p.rate parameterLimit).toUInt32

/-- What a channel can be told to do. -/
inductive Action where
  | noteOn (note velocity : UInt8)
  | noteOff
  | setDuty (duty : UInt8)
  | configureVibrato (params : VibratoParams)
  | vibratoOn
  | vibratoOff
  | configureEnvelope (params : EnvelopeParams)
  | envelopeOn
  | envelopeOff
  deriving DecidableEq, Repr

/-- A control command. -/
inductive Command where
  | allNotesOff
  | address (channel : UInt8) (action : Action)
  deriving DecidableEq, Repr

/-- The number of the channel that a command addresses. -/
def Command.channel? : Command → Option UInt8
  | .allNotesOff => none
  | .address channel _ => some channel

/-- A command placed before the sample with index `time`. -/
structure Event where
  time : UInt64
  command : Command
  deriving DecidableEq, Repr

/-- A time in milliseconds as a number of samples. The product with the rate
stops at the largest 64-bit word. -/
def samplesOfMilliseconds (ms : UInt64) (rate : UInt32) : UInt64 :=
  (min (ms.toNat * rate.toNat) (UInt64.size - 1) / 1000).toUInt64

/-- A command placed at a time in milliseconds. -/
def Event.atMilliseconds (ms : UInt64) (rate : UInt32) (command : Command) : Event :=
  ⟨samplesOfMilliseconds ms rate, command⟩

/-! ## Text -/

/-- A constructor name with named fields in braces. -/
def braced (name : String) (fields : List (String × String)) : String :=
  name ++ " \x7b " ++ ", ".intercalate (fields.map fun f => f.1 ++ ": " ++ f.2) ++ " \x7d"

def EnvelopeParams.text (p : EnvelopeParams) : String :=
  braced "EnvelopeParams"
    [("attack", toString p.attack), ("decay", toString p.decay),
      ("sustain", toString p.sustain), ("release", toString p.release)]

def VibratoParams.text (p : VibratoParams) : String :=
  braced "VibratoParams" [("rate", toString p.rate), ("depth", toString p.depth)]

/-- The name of an action, and its fields after the channel. -/
def Action.parts : Action → String × List (String × String)
  | .noteOn note velocity =>
      ("NoteOn", [("note", toString note), ("velocity", toString velocity)])
  | .noteOff => ("NoteOff", [])
  | .setDuty duty => ("SetDuty", [("duty", toString duty)])
  | .configureVibrato params => ("ConfigureVibrato", [("params", params.text)])
  | .vibratoOn => ("VibratoOn", [])
  | .vibratoOff => ("VibratoOff", [])
  | .configureEnvelope params => ("ConfigureEnvelope", [("params", params.text)])
  | .envelopeOn => ("EnvelopeOn", [])
  | .envelopeOff => ("EnvelopeOff", [])

/-- A command with all its fields. -/
def Command.text : Command → String
  | .allNotesOff => "AllNotesOff"
  | .address channel action =>
      braced action.parts.1 (("channel", toString channel) :: action.parts.2)

def Event.text (e : Event) : String :=
  braced "Event" [("time", toString e.time), ("command", e.command.text)]

end Chiptune
