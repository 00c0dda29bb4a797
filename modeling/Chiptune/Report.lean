import Chiptune.Fixed.Text
import Chiptune.Synth

/-!
# Reports

The state of a voice as a text of several lines.
-/

set_option autoImplicit false

namespace Chiptune

/-- A line of named values behind `depth` tabs, with a tab between values. -/
def reportLine (depth : Nat) (values : List (String × String)) : String :=
  "".pushn '\t' depth ++ "\t".intercalate (values.map fun v => v.1 ++ ": " ++ v.2) ++ "\n"

/-- A title in brackets behind `depth` tabs. -/
def reportTitle (depth : Nat) (title : String) : String :=
  "".pushn '\t' depth ++ "[" ++ title ++ "]\n"

def Vibrato.report (v : Vibrato) : String :=
  reportTitle 1 "Vibrato" ++
    reportLine 2 [("on", toString v.enabled), ("depth", toString v.params.depth)] ++
    reportLine 2 [("rate", toString v.params.rate), ("rising", toString v.rising)] ++
    reportLine 2 [("half period", v.halfPeriod.text), ("period", v.fullPeriod.text)] ++
    reportLine 2 [("time", v.time.text), ("base", v.base.text)] ++
    reportLine 2 [("delta", v.delta.text)]

def Envelope.report (e : Envelope) : String :=
  reportTitle 1 "ADSR" ++
    reportLine 2 [("on", toString e.enabled), ("state", e.stage.text)] ++
    reportLine 2 [("a", toString e.params.attack), ("d", toString e.params.decay),
      ("s", toString e.params.sustain), ("r", toString e.params.release)] ++
    reportLine 2 [("attack step", e.attackStep.text), ("decay step", e.decayStep.text)] ++
    reportLine 2 [("sustain factor", e.sustainFactor.text),
      ("release step", e.releaseStep.text)] ++
    reportLine 2 [("amplitude factor", e.factor.text)]

def Square.report (s : Square) : String :=
  reportLine 1 [("note on", toString s.held), ("note", toString s.note)] ++
    reportLine 1 [("duty", toString s.phase.duty), ("is high", toString s.isHigh)] ++
    reportLine 1 [("high level", toString s.amplitude.high.toInt),
      ("low level", toString s.amplitude.low.toInt)] ++
    reportLine 1 [("rising edge", s.phase.edge.text), ("period", s.phase.period.text)] ++
    reportLine 1 [("time", s.phase.time.text)] ++
    s.vibrato.report ++ s.amplitude.envelope.report

def Triangle.report (s : Triangle) : String :=
  reportLine 1 [("note on", toString s.held), ("note", toString s.note)] ++
    reportLine 1 [("duty", toString s.phase.duty), ("amplitude", toString s.velocity)] ++
    reportLine 1 [("current", toString s.current.toInt), ("low level", toString s.low.toInt)] ++
    reportLine 1 [("up step", toString s.up.toInt), ("down step", toString s.down.toInt)] ++
    reportLine 1 [("falling edge", s.phase.edge.text), ("period", s.phase.period.text)] ++
    reportLine 1 [("time", s.phase.time.text), ("rising", toString s.rising)] ++
    reportLine 1 [("vibrato on", toString s.vibratoFlag)]

def Noise.report (s : Noise) : String :=
  reportLine 1 [("note on", toString s.held), ("note", toString s.note)] ++
    reportLine 1 [("prescaler", toString s.prescaler), ("counter", toString s.counter)] ++
    reportLine 1 [("high level", toString s.amplitude.high.toInt),
      ("low level", toString s.amplitude.low.toInt)] ++
    reportLine 1 [("is high", toString s.isHigh)] ++
    s.amplitude.envelope.report

/-- The report on the voice of a channel, under the channel's name. -/
def Voice.report (channel : Channel) (v : Voice) : String :=
  reportTitle 0 channel.name ++
    match v with
    | .square s => s.report
    | .triangle s => s.report
    | .noise s => s.report

end Chiptune
