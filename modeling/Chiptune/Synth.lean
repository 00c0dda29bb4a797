import Chiptune.SampleRing
import Chiptune.Voice.Noise
import Chiptune.Voice.Square
import Chiptune.Voice.Triangle

/-!
# The synthesizer

Two squares, a triangle and a noise voice, mixed into a ring of samples. An
action reaches one voice and no other; a sample is the sum of one sample of
each voice, kept to sixteen bits.
-/

set_option autoImplicit false

namespace Chiptune

/-- The cells of the synthesizer's ring. -/
abbrev ringCapacity : Nat := 128

/-- The state of the synthesizer. -/
structure Synth (ρ : Type) where
  tuning : Tuning
  squareA : Square
  squareB : Square
  triangle : Triangle
  noise : Noise
  source : ρ
  ring : SampleRing ringCapacity

/-- The state of the voice on one channel. -/
inductive Voice where
  | square (state : Square)
  | triangle (state : Triangle)
  | noise (state : Noise)
  deriving DecidableEq, Repr

namespace Synth

variable {ρ : Type}

/-- A silent synthesizer with a tuning and a bit source. -/
def tuned (tuning : Tuning) (source : ρ) : Synth ρ where
  tuning
  squareA := Square.fresh 64
  squareB := Square.fresh 127
  triangle := Triangle.fresh 32
  noise := Noise.fresh
  source
  ring := SampleRing.empty ringCapacity

/-- A silent synthesizer at a sample rate. -/
def fresh (rate : UInt32) (source : ρ) : Synth ρ := tuned (Tuning.equalTempered rate) source

/-- Every voice silent at a new sample rate. The bit source goes on, and the
ring keeps its old cells. -/
def restart (s : Synth ρ) (rate : UInt32) : Synth ρ :=
  { fresh rate s.source with ring := s.ring.clear }

def sampleRate (s : Synth ρ) : UInt32 := s.tuning.sampleRate

/-- The voice on a channel. -/
def voice (s : Synth ρ) : Channel → Voice
  | .squareA => .square s.squareA
  | .squareB => .square s.squareB
  | .triangle => .triangle s.triangle
  | .noise => .noise s.noise

/-- Carries out an action on a channel. -/
def perform (s : Synth ρ) (channel : Channel) (action : Action) : Except Fault (Synth ρ) :=
  match channel with
  | .squareA => return { s with squareA := ← s.squareA.perform s.tuning action }
  | .squareB => return { s with squareB := ← s.squareB.perform s.tuning action }
  | .triangle => return { s with triangle := ← s.triangle.perform s.tuning action }
  | .noise => return { s with noise := ← s.noise.perform action }

/-- Ends the note of every channel. -/
def allNotesOff (s : Synth ρ) : Synth ρ :=
  { s with
    squareA := s.squareA.noteOff
    squareB := s.squareB.noteOff
    triangle := s.triangle.noteOff
    noise := s.noise.noteOff }

/-- Carries out a command. A number without a channel changes nothing. -/
def apply (s : Synth ρ) : Command → Except Fault (Synth ρ)
  | .allNotesOff => .ok s.allNotesOff
  | .address number action =>
      match Channel.ofNumber number with
      | .ok channel => s.perform channel action
      | .error _ => .ok s

/-- Carries out commands in order. -/
def applyAll (s : Synth ρ) : List Command → Except Fault (Synth ρ)
  | [] => .ok s
  | c :: cs => do (← s.apply c).applyAll cs

/-- One modulation tick: first the vibratos, then the envelopes. -/
def modulate (s : Synth ρ) : Except Fault (Synth ρ) := do
  let squareA ← s.squareA.modulateVibrato
  let squareB ← s.squareB.modulateVibrato
  let squareA ← squareA.modulateEnvelope
  let squareB ← squareB.modulateEnvelope
  let noise ← s.noise.modulateEnvelope
  return { s with squareA, squareB, noise }

/-- The sum of four voice samples, kept to sixteen bits. -/
def sum (a b c d : Int16) : Int16 := Int16.ofInt (a.toInt + b.toInt + c.toInt + d.toInt)

/-- One sample of every voice, summed. -/
def mix [BitSource ρ] (s : Synth ρ) : Except Fault (Int16 × Synth ρ) := do
  let (a, squareA) ← s.squareA.next
  let (b, squareB) ← s.squareB.next
  let (c, triangle) ← s.triangle.next
  let (d, noise, source) ← s.noise.next s.source
  return (sum a b c d, { s with squareA, squareB, triangle, noise, source })

/-- One mixed sample into the ring. -/
def tick [BitSource ρ] (s : Synth ρ) : Except Fault (Synth ρ) := do
  let (sample, s) ← s.mix
  return { s with ring := ← s.ring.push sample }

/-- The oldest sample out of the ring. -/
def pop (s : Synth ρ) : Except Fault (Int16 × Synth ρ) := do
  let (sample, ring) ← s.ring.pop
  return (sample, { s with ring })

end Synth

end Chiptune
