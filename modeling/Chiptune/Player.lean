import Chiptune.Notice
import Chiptune.Synth
import Chiptune.Timeline

/-!
# The player

A player generates samples ahead into the ring of a synthesizer. Before each
sample it carries out the events that are due, and after every `interval`
samples it gives a modulation tick. When the ring has run empty it is filled,
and samples are then taken out of it one by one.

A fault halts the player; the halt keeps the player as far as its timeline had
come, so that the notices of the events handed out are not lost.
-/

set_option autoImplicit false

namespace Chiptune

/-- Modulation ticks per second. -/
def modulationRate : UInt32 := 100

/-- A synthesizer, the events it is to be given, and the clocks. -/
structure Player (ρ : Type) where
  synth : Synth ρ
  timeline : Timeline
  interval : UInt32
  sinceModulation : UInt32
  generated : UInt64

/-- A fault, and the player in which it happened. -/
structure Halt (ρ : Type) where
  fault : Fault
  player : Player ρ

namespace Player

variable {ρ : Type}

/-- A player at its first sample. -/
def start (synth : Synth ρ) (timeline : Timeline) : Player ρ where
  synth
  timeline
  interval := max (synth.sampleRate / modulationRate) 1
  sinceModulation := 0
  generated := 0

/-- A number of samples between modulation ticks, at least one. -/
def withInterval (p : Player ρ) (samples : UInt32) : Player ρ :=
  { p with interval := max samples 1 }

/-- One more event. -/
def schedule (p : Player ρ) (e : Event) : Player ρ :=
  { p with timeline := p.timeline.push e }

/-- The synthesizer after a tick, with a modulation tick when one is due. -/
def clock (p : Player ρ) : Except Fault (Player ρ) := do
  let generated ← Checked.add64 p.generated 1
  let sinceModulation ← Checked.add32 p.sinceModulation 1
  if p.interval ≤ sinceModulation then
    return { p with synth := ← p.synth.modulate, sinceModulation := 0, generated }
  else
    return { p with sinceModulation, generated }

/-- The events that are due are carried out, then one sample goes into the
ring. -/
def generate [BitSource ρ] (p : Player ρ) : Except (Halt ρ) (Player ρ) :=
  let timeline := p.timeline.drain p.generated
  let due := (timeline.between p.timeline.cursor timeline.cursor).map Event.command
  let step : Except Fault (Player ρ) := do
    let synth ← p.synth.applyAll due
    let synth ← synth.tick
    clock { p with synth, timeline }
  step.mapError fun fault => ⟨fault, { p with timeline }⟩

/-- Generates `n` samples. -/
def generateMany [BitSource ρ] : Nat → Player ρ → Except (Halt ρ) (Player ρ)
  | 0, p => .ok p
  | n + 1, p => do generateMany n (← p.generate)

/-- The free cells of the ring. -/
def room (p : Player ρ) : Nat := ringCapacity - p.synth.ring.length

/-- Generates until the ring is full. -/
def fill [BitSource ρ] (p : Player ρ) : Except (Halt ρ) (Player ρ) :=
  p.generateMany p.room

/-- The next sample. -/
def next [BitSource ρ] (p : Player ρ) : Except (Halt ρ) (Int16 × Player ρ) := do
  let p ← if p.synth.ring.isEmpty then p.fill else pure p
  match p.synth.pop with
  | .ok (sample, synth) => return (sample, { p with synth })
  | .error fault => throw ⟨fault, p⟩

/-- The next `n` samples after those in `acc`. -/
def take [BitSource ρ] : Nat → Array Int16 → Player ρ → Except (Halt ρ) (Array Int16 × Player ρ)
  | 0, acc, p => .ok (acc, p)
  | n + 1, acc, p => do
      let (sample, p) ← p.next
      take n (acc.push sample) p

/-- Every event was carried out. -/
def eventsDone (p : Player ρ) : Bool := p.timeline.isExhausted

/-- The notices of the events handed out since the cursor stood at `first`. -/
def noticesSince (p : Player ρ) (first : Nat) : List Notice :=
  (p.timeline.between first p.timeline.cursor).flatMap fun e => e.command.notices

end Player

end Chiptune
