import Chiptune.Command
import Chiptune.Timeline
import Chiptune.Tuning

/-!
# Patches

A patch is a piece to be played: the setup of channels and a list of commands
at times in milliseconds, with a sample rate and a length.
-/

set_option autoImplicit false

namespace Chiptune

/-- An envelope as a patch sets it up. -/
structure EnvelopeSetup where
  params : EnvelopeParams
  enabled : Bool
  deriving DecidableEq, Repr

/-- A vibrato as a patch sets it up. -/
structure VibratoSetup where
  params : VibratoParams
  enabled : Bool
  deriving DecidableEq, Repr

/-- The setup of one channel. What is absent stays as it is. -/
structure ChannelSetup where
  channel : UInt8
  duty : Option UInt8
  envelope : Option EnvelopeSetup
  vibrato : Option VibratoSetup
  deriving DecidableEq, Repr

/-- A command at a time in milliseconds. -/
structure TimedCommand where
  atMs : UInt64
  command : Command
  deriving DecidableEq, Repr

/-- A piece to be played. -/
structure Patch where
  sampleRate : UInt32
  lengthMs : UInt64
  channels : List ChannelSetup
  events : List TimedCommand
  deriving DecidableEq, Repr

/-- The commands that bring about a setup: duty, envelope, vibrato. Configuring
a vibrato also starts it. -/
def ChannelSetup.commands (s : ChannelSetup) : List Command :=
  let tell := Command.address s.channel
  (match s.duty with
    | some duty => [tell (.setDuty duty)]
    | none => []) ++
  (match s.envelope with
    | some e => [tell (.configureEnvelope e.params),
        tell (if e.enabled then .envelopeOn else .envelopeOff)]
    | none => []) ++
  (match s.vibrato with
    | some v => tell (.configureVibrato v.params) :: if v.enabled then [] else [tell .vibratoOff]
    | none => [])

namespace Patch

/-- The largest sample rate of a patch. -/
def maxSampleRate : UInt32 := 192000

/-- The sample rate is one that can be played. -/
def HasValidRate (p : Patch) : Prop := 0 < p.sampleRate ∧ p.sampleRate ≤ maxSampleRate

instance (p : Patch) : Decidable p.HasValidRate := inferInstanceAs (Decidable (_ ∧ _))

/-- One second of silence. -/
def silence : Patch where
  sampleRate := defaultSampleRate
  lengthMs := 1000
  channels := []
  events := []

/-- The commands that set up the channels. -/
def setupCommands (p : Patch) : List Command := p.channels.flatMap ChannelSetup.commands

/-- The setup at the first sample, then the timed commands, at a sample rate. -/
def eventList (p : Patch) (rate : UInt32) : List Event :=
  p.setupCommands.map (Event.mk 0) ++
    p.events.map fun t => Event.atMilliseconds t.atMs rate t.command

/-- The events of the patch in the order of their times. -/
def timeline (p : Patch) (rate : UInt32) : Timeline := Timeline.ofList (p.eventList rate)

/-- The length in samples. -/
def lengthSamples (p : Patch) (rate : UInt32) : UInt64 := samplesOfMilliseconds p.lengthMs rate

/-- Two chords over a burst of noise. -/
def demo : Patch :=
  let quiet : EnvelopeSetup := ⟨⟨0, 10, 5, 50⟩, false⟩
  let wobble : VibratoSetup := ⟨⟨115, 30⟩, true⟩
  let note (atMs : UInt64) (channel : Channel) (note velocity : UInt8) : TimedCommand :=
    ⟨atMs, .address channel.number (.noteOn note velocity)⟩
  { sampleRate := defaultSampleRate
    lengthMs := 2000
    channels :=
      [⟨Channel.squareA.number, none, some quiet, some wobble⟩,
        ⟨Channel.squareB.number, none, some quiet, some wobble⟩,
        ⟨Channel.noise.number, none, some ⟨⟨2, 6, 0, 0⟩, true⟩, none⟩]
    events :=
      [note 0 .squareA 64 32, note 0 .squareB 67 32, note 0 .triangle 48 92,
        note 0 .noise 100 40,
        note 1000 .squareA 69 32, note 1000 .squareB 72 32, note 1000 .triangle 45 92,
        note 1000 .noise 110 40,
        ⟨1800, .allNotesOff⟩] }

end Patch

end Chiptune
