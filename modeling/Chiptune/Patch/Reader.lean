import Chiptune.FileError
import Chiptune.Json.Record
import Chiptune.Patch

/-!
# Reading patches

A patch is read from JSON text. All its fields have defaults; the fields of a
setup are optional except the channel. An event is an object that holds the
time, the type of the command and the command's fields in any order.
-/

set_option autoImplicit false

namespace Chiptune

open Json

/-! ## Setups -/

/-- What was read of an envelope setup. -/
structure EnvelopeDraft where
  attack : Option UInt8
  decay : Option UInt8
  sustain : Option UInt8
  release : Option UInt8
  enabled : Option Bool

def EnvelopeSetup.record : Record EnvelopeDraft EnvelopeSetup where
  start := ⟨none, none, none, none, none⟩
  fields :=
    [{ name := "attack", isSet := fun d => d.attack.isSome
       read := fun d cs => do let (v, cs) ← byte cs; return ({ d with attack := some v }, cs) },
     { name := "decay", isSet := fun d => d.decay.isSome
       read := fun d cs => do let (v, cs) ← byte cs; return ({ d with decay := some v }, cs) },
     { name := "sustain", isSet := fun d => d.sustain.isSome
       read := fun d cs => do let (v, cs) ← byte cs; return ({ d with sustain := some v }, cs) },
     { name := "release", isSet := fun d => d.release.isSome
       read := fun d cs => do let (v, cs) ← byte cs; return ({ d with release := some v }, cs) },
     { name := "enabled", isSet := fun d => d.enabled.isSome
       read := fun d cs => do
        let (v, cs) ← boolean cs
        return ({ d with enabled := some v }, cs) }]
  build := fun d => do
    return ⟨⟨← d.attack, ← d.decay, ← d.sustain, ← d.release⟩, d.enabled.getD true⟩

/-- What was read of a vibrato setup. -/
structure VibratoDraft where
  rate : Option UInt8
  depth : Option UInt8
  enabled : Option Bool

def VibratoSetup.record : Record VibratoDraft VibratoSetup where
  start := ⟨none, none, none⟩
  fields :=
    [{ name := "rate", isSet := fun d => d.rate.isSome
       read := fun d cs => do let (v, cs) ← byte cs; return ({ d with rate := some v }, cs) },
     { name := "depth", isSet := fun d => d.depth.isSome
       read := fun d cs => do let (v, cs) ← byte cs; return ({ d with depth := some v }, cs) },
     { name := "enabled", isSet := fun d => d.enabled.isSome
       read := fun d cs => do
        let (v, cs) ← boolean cs
        return ({ d with enabled := some v }, cs) }]
  build := fun d => do return ⟨⟨← d.rate, ← d.depth⟩, d.enabled.getD true⟩

/-- What was read of a channel setup. A field that was read as `null` is set. -/
structure ChannelDraft where
  channel : Option UInt8
  duty : Option (Option UInt8)
  envelope : Option (Option EnvelopeSetup)
  vibrato : Option (Option VibratoSetup)

def ChannelSetup.record : Record ChannelDraft ChannelSetup where
  start := ⟨none, none, none, none⟩
  fields :=
    [{ name := "channel", isSet := fun d => d.channel.isSome
       read := fun d cs => do let (v, cs) ← byte cs; return ({ d with channel := some v }, cs) },
     { name := "duty", isSet := fun d => d.duty.isSome
       read := fun d cs => do
        let (v, cs) ← optional byte cs
        return ({ d with duty := some v }, cs) },
     { name := "envelope", isSet := fun d => d.envelope.isSome
       read := fun d cs => do
        let (v, cs) ← optional EnvelopeSetup.record.scan cs
        return ({ d with envelope := some v }, cs) },
     { name := "vibrato", isSet := fun d => d.vibrato.isSome
       read := fun d cs => do
        let (v, cs) ← optional VibratoSetup.record.scan cs
        return ({ d with vibrato := some v }, cs) }]
  build := fun d => do return ⟨← d.channel, d.duty.join, d.envelope.join, d.vibrato.join⟩

/-! ## Events -/

/-- A value of an event, as far as a command can use it. -/
inductive EventValue where
  | text (s : String)
  | natural (n : Nat)
  | other
  deriving DecidableEq, Repr

/-- The brackets around a value of an event: the patch, the list of events and
the event. -/
def eventDepth : Nat := 3

/-- A value of an event. -/
def EventValue.scan : Scan EventValue := fun cs =>
  match skipBlanks cs with
  | [] => .error .truncated
  | c :: cs =>
      if c = '"' then do
        let (s, rest) ← textFrom [] cs
        return (.text s, rest)
      else if startsNumber c then do
        let (n?, rest) ← number (c :: cs)
        return (n?.elim .other .natural, rest)
      else do return (.other, ← skipValue .strict eventDepth (c :: cs))

/-- The members of an event other than its time. -/
abbrev EventMembers := List (String × EventValue)

/-- The value of a key that occurs once. -/
def EventMembers.single? (ms : EventMembers) (key : String) : Option EventValue :=
  match ms.filter fun m => m.1 == key with
  | [m] => some m.2
  | _ => none

/-- The 8-bit value of a key that occurs once. -/
def EventMembers.byte? (ms : EventMembers) (key : String) : Option UInt8 := do
  match ← ms.single? key with
  | .natural n => if n ≤ 255 then some n.toUInt8 else none
  | _ => none

def EventMembers.vibratoParams? (ms : EventMembers) : Option VibratoParams := do
  return ⟨← ms.byte? "rate", ← ms.byte? "depth"⟩

def EventMembers.envelopeParams? (ms : EventMembers) : Option EnvelopeParams := do
  return ⟨← ms.byte? "attack", ← ms.byte? "decay", ← ms.byte? "sustain", ← ms.byte? "release"⟩

/-- The action of a type, from the members of an event. -/
def EventMembers.action? (ms : EventMembers) : String → Option Action
  | "note_on" => return .noteOn (← ms.byte? "note") (← ms.byte? "velocity")
  | "note_off" => some .noteOff
  | "set_duty" => return .setDuty (← ms.byte? "duty")
  | "vibrato" => return .configureVibrato (← ms.vibratoParams?)
  | "vibrato_on" => some .vibratoOn
  | "vibrato_off" => some .vibratoOff
  | "envelope" => return .configureEnvelope (← ms.envelopeParams?)
  | "envelope_on" => some .envelopeOn
  | "envelope_off" => some .envelopeOff
  | _ => none

/-- The names of the types of commands, by number. -/
def commandTypes : List String :=
  ["note_on", "note_off", "all_notes_off", "set_duty", "vibrato", "vibrato_on", "vibrato_off",
    "envelope", "envelope_on", "envelope_off"]

/-- The type of a command by its name or its number. -/
def EventValue.commandType? : EventValue → Option String
  | .text s => some s
  | .natural n => commandTypes[n]?
  | .other => none

/-- The command that the members of an event describe. -/
def EventMembers.command? (ms : EventMembers) : Option Command := do
  let type ← (← ms.single? "type").commandType?
  if type = "all_notes_off" then return .allNotesOff
  else return .address (← ms.byte? "channel") (← ms.action? type)

/-- What was read of an event. -/
structure EventDraft where
  atMs : Option UInt64
  members : EventMembers

/-- One member of an event. The time is read as it comes; the other members
are kept until the event ends. -/
def EventDraft.member (key : String) (d : EventDraft) : Scan EventDraft := fun cs =>
  if key = "at_ms" then
    if d.atMs.isSome then .error .mismatch
    else do
      let (n, cs) ← natural (UInt64.size - 1) (← colon cs)
      return ({ d with atMs := some n.toUInt64 }, cs)
  else do
    let (value, cs) ← EventValue.scan (← colon cs)
    return ({ d with members := d.members ++ [(key, value)] }, cs)

def EventDraft.build (d : EventDraft) : Option TimedCommand := do
  return ⟨← d.atMs, ← d.members.command?⟩

/-- An event. -/
def TimedCommand.scan : Scan TimedCommand := fun cs =>
  match skipBlanks cs with
  | '\x7b' :: cs => do
      let (d, rest) ← members EventDraft.member (cs.length + 1) true ⟨none, []⟩ cs
      return (← required d.build, rest)
  | cs => .error (wrongKind cs)

/-! ## Patches -/

/-- What was read of a patch. -/
structure PatchDraft where
  sampleRate : Option UInt32
  lengthMs : Option UInt64
  channels : Option (List ChannelSetup)
  events : Option (List TimedCommand)

namespace Patch

def record : Record PatchDraft Patch where
  start := ⟨none, none, none, none⟩
  fields :=
    [{ name := "sample_rate", isSet := fun d => d.sampleRate.isSome
       read := fun d cs => do
        let (n, cs) ← natural (UInt32.size - 1) cs
        return ({ d with sampleRate := some n.toUInt32 }, cs) },
     { name := "length_ms", isSet := fun d => d.lengthMs.isSome
       read := fun d cs => do
        let (n, cs) ← natural (UInt64.size - 1) cs
        return ({ d with lengthMs := some n.toUInt64 }, cs) },
     { name := "channels", isSet := fun d => d.channels.isSome
       read := fun d cs => do
        let (v, cs) ← list ChannelSetup.record.scan cs
        return ({ d with channels := some v }, cs) },
     { name := "events", isSet := fun d => d.events.isSome
       read := fun d cs => do
        let (v, cs) ← list TimedCommand.scan cs
        return ({ d with events := some v }, cs) }]
  build := fun d => some
    { sampleRate := d.sampleRate.getD silence.sampleRate
      lengthMs := d.lengthMs.getD silence.lengthMs
      channels := d.channels.getD silence.channels
      events := d.events.getD silence.events }

end Patch

/-- Why a text is not taken as a patch. -/
inductive PatchError where
  | unreadable (cause : ReadError)
  | sampleRate (rate : UInt32)
  deriving DecidableEq, Repr

def PatchError.message : PatchError → String
  | .unreadable .malformed => "patch parse error: not JSON"
  | .unreadable .mismatch => "patch parse error: not a patch"
  | .unreadable .truncated => "patch parse error: unexpected end of text"
  | .sampleRate rate => s!"invalid patch: sample rate {rate} outside 1..={Patch.maxSampleRate}"

namespace Patch

/-- The patch, if its sample rate can be played. -/
def validated (p : Patch) : Except PatchError Patch :=
  if p.HasValidRate then .ok p else .error (.sampleRate p.sampleRate)

/-- The patch of a JSON text. -/
def ofJson (text : String) : Except PatchError Patch :=
  match whole record.scan text.toList with
  | .ok p => p.validated
  | .error e => .error (.unreadable e)

end Patch

/-- Why a file is not taken as a patch. -/
inductive LoadError where
  | file (cause : FileError)
  | notUtf8
  | notPatch (cause : PatchError)
  deriving DecidableEq, Repr

def LoadError.message : LoadError → String
  | .file cause => "io error: " ++ cause.message
  | .notUtf8 => "io error: stream did not contain valid UTF-8"
  | .notPatch cause => cause.message

/-- The patch of a file, given what came of reading it. -/
def Patch.load (contents : Except FileError ByteArray) : Except LoadError Patch :=
  match contents with
  | .error cause => .error (.file cause)
  | .ok bytes =>
      match String.fromUTF8? bytes with
      | none => .error .notUtf8
      | some text => (Patch.ofJson text).mapError .notPatch

end Chiptune
