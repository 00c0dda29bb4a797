import Chiptune.Command

/-!
# Notices

Configuring a channel is noted, and so is a command that a channel does not
support or that no channel receives. The notices depend on the command alone.
-/

set_option autoImplicit false

namespace Chiptune

/-- How important a notice is. -/
inductive Level where
  | debug
  | info
  | warn
  | error
  deriving DecidableEq, Repr

def Level.text : Level → String
  | .debug => "DEBUG"
  | .info => "INFO"
  | .warn => "WARN"
  | .error => "ERROR"

/-- A remark made while commands are carried out. -/
structure Notice where
  level : Level
  text : String
  deriving DecidableEq, Repr

/-- The level followed by the text. -/
def Notice.line (n : Notice) : String := n.level.text ++ " " ++ n.text

/-- The notices of an action on an existing channel. -/
def Action.notices (channel : Channel) : Action → List Notice
  | .noteOn _ _ | .noteOff => []
  | .setDuty duty =>
      if channel.hasDuty then []
      else [⟨.warn, s!"{channel.name} has no duty cycle (duty {duty})"⟩]
  | .configureVibrato p =>
      ⟨.debug, s!"{channel.name}: vibrato rate {p.rate} depth {p.depth}"⟩ ::
        if channel.hasVibrato then []
        else [⟨.warn,
          s!"vibrato not supported on {channel.name} (rate {p.rate}, depth {p.depth})"⟩]
  | .vibratoOn =>
      if channel = .noise then
        [⟨.warn, s!"vibrato not supported on {channel.name} (vibrato on)"⟩]
      else []
  | .vibratoOff =>
      if channel = .noise then
        [⟨.warn, s!"vibrato not supported on {channel.name} (vibrato off)"⟩]
      else []
  | .configureEnvelope p =>
      ⟨.debug, s!"{channel.name}: adsr {p.attack} {p.decay} {p.sustain} {p.release}"⟩ ::
        if channel.hasEnvelope then []
        else [⟨.warn, s!"cannot configure adsr envelope on {channel.name}"⟩]
  | .envelopeOn =>
      if channel.hasEnvelope then []
      else [⟨.warn, s!"cannot activate adsr envelope on {channel.name}"⟩]
  | .envelopeOff =>
      if channel.hasEnvelope then []
      else [⟨.warn, s!"cannot deactivate adsr envelope on {channel.name}"⟩]

/-- The notices of a command. -/
def Command.notices : Command → List Notice
  | .allNotesOff => []
  | .address number action =>
      match Channel.ofNumber number with
      | .ok channel => action.notices channel
      | .error unknown =>
          [⟨.warn, unknown.message ++ ": ignoring " ++ (Command.address number action).text⟩]

end Chiptune
