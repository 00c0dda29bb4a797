import Chiptune.Json.Layout
import Chiptune.Patch

/-!
# Writing patches

The JSON text of a patch. Fields stand in a fixed order; an absent option is
left out.
-/

set_option autoImplicit false

namespace Chiptune

open Json

/-- A member with an 8-bit value. -/
def byteMember (key : String) (v : UInt8) : String × Layout := (key, .natural v.toNat)

def EnvelopeParams.members (p : EnvelopeParams) : List (String × Layout) :=
  [byteMember "attack" p.attack, byteMember "decay" p.decay, byteMember "sustain" p.sustain,
    byteMember "release" p.release]

def VibratoParams.members (p : VibratoParams) : List (String × Layout) :=
  [byteMember "rate" p.rate, byteMember "depth" p.depth]

def EnvelopeSetup.layout (e : EnvelopeSetup) : Layout :=
  .object (e.params.members ++ [("enabled", .boolean e.enabled)])

def VibratoSetup.layout (v : VibratoSetup) : Layout :=
  .object (v.params.members ++ [("enabled", .boolean v.enabled)])

def ChannelSetup.layout (s : ChannelSetup) : Layout :=
  .object <|
    byteMember "channel" s.channel ::
      ((s.duty.map fun d => byteMember "duty" d).toList ++
        (s.envelope.map fun e => ("envelope", e.layout)).toList ++
        (s.vibrato.map fun v => ("vibrato", v.layout)).toList)

/-- The type of an action, and its fields after the channel. -/
def Action.members : Action → String × List (String × Layout)
  | .noteOn note velocity => ("note_on", [byteMember "note" note, byteMember "velocity" velocity])
  | .noteOff => ("note_off", [])
  | .setDuty duty => ("set_duty", [byteMember "duty" duty])
  | .configureVibrato params => ("vibrato", params.members)
  | .vibratoOn => ("vibrato_on", [])
  | .vibratoOff => ("vibrato_off", [])
  | .configureEnvelope params => ("envelope", params.members)
  | .envelopeOn => ("envelope_on", [])
  | .envelopeOff => ("envelope_off", [])

/-- The type of a command and its fields. -/
def Command.members : Command → List (String × Layout)
  | .allNotesOff => [("type", .word "all_notes_off")]
  | .address channel action =>
      ("type", .word action.members.1) :: byteMember "channel" channel :: action.members.2

def TimedCommand.layout (t : TimedCommand) : Layout :=
  .object (("at_ms", .natural t.atMs.toNat) :: t.command.members)

namespace Patch

def layout (p : Patch) : Layout :=
  .object
    [("sample_rate", .natural p.sampleRate.toNat),
      ("length_ms", .natural p.lengthMs.toNat),
      ("channels", .list (p.channels.map ChannelSetup.layout)),
      ("events", .list (p.events.map TimedCommand.layout))]

/-- The JSON text of a patch. -/
def toJson (p : Patch) : String := String.ofList (p.layout 0)

end Patch

end Chiptune
