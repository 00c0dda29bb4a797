/-!
# Channels

The four channels of the synthesizer, their numbers, their names and what each
of them supports.
-/

set_option autoImplicit false

namespace Chiptune

/-- One of the four channels. -/
inductive Channel where
  | squareA
  | squareB
  | triangle
  | noise
  deriving DecidableEq, Repr

/-- A number that belongs to no channel. -/
structure UnknownChannel where
  number : UInt8
  deriving DecidableEq, Repr

def UnknownChannel.message (u : UnknownChannel) : String :=
  s!"channel {u.number} does not exist"

namespace Channel

/-- The channels in the order of their numbers. -/
def all : List Channel := [squareA, squareB, triangle, noise]

def number : Channel → UInt8
  | squareA => 0
  | squareB => 1
  | triangle => 2
  | noise => 3

/-- The channel with a number. -/
def ofNumber (n : UInt8) : Except UnknownChannel Channel :=
  match n with
  | 0 => .ok squareA
  | 1 => .ok squareB
  | 2 => .ok triangle
  | 3 => .ok noise
  | _ => .error ⟨n⟩

/-- The name in reports and notices. -/
def name : Channel → String
  | squareA => "square A"
  | squareB => "square B"
  | triangle => "triangle"
  | noise => "noise"

/-- The name as one word. -/
def tag : Channel → String
  | squareA => "SquareA"
  | squareB => "SquareB"
  | triangle => "Triangle"
  | noise => "Noise"

/-- The triangle is the one channel without an envelope. -/
def hasEnvelope : Channel → Bool
  | triangle => false
  | _ => true

/-- Only the squares step a vibrato. -/
def hasVibrato : Channel → Bool
  | squareA | squareB => true
  | _ => false

/-- The noise is the one channel without a duty. -/
def hasDuty : Channel → Bool
  | noise => false
  | _ => true

theorem ofNumber_number (c : Channel) : ofNumber c.number = .ok c := by
  cases c <;> rfl

end Channel

end Chiptune
