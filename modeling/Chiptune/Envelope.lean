import Chiptune.Command
import Chiptune.Fixed

/-!
# Envelopes

An envelope moves an amplitude factor between 0 and 1 through attack, decay,
sustain and release, one step per modulation tick. A step that moves the factor
marks it as pending; the voice takes a pending factor at the start of its next
cycle.
-/

set_option autoImplicit false

namespace Chiptune

/-- The stage of an envelope. A fresh envelope is off. -/
inductive Stage where
  | off
  | attack
  | decay
  | sustain
  | release
  deriving DecidableEq, Repr

def Stage.text : Stage → String
  | .off => "Off"
  | .attack => "Attack"
  | .decay => "Decay"
  | .sustain => "Sustain"
  | .release => "Release"

/-- The state of an envelope. -/
structure Envelope where
  enabled : Bool
  pending : Bool
  stage : Stage
  params : EnvelopeParams
  attackStep : Fixed
  decayStep : Fixed
  sustainFactor : Fixed
  releaseStep : Fixed
  factor : Fixed
  deriving DecidableEq, Repr

namespace Envelope

/-- The step of a stage that lasts `ticks` ticks; a stage of no ticks takes the
step `instant`. -/
def stepFor (ticks : UInt8) (instant : Fixed) : Except Fault Fixed :=
  if ticks = 0 then .ok instant else Fixed.one.divBy ticks.toUInt32

/-- A disabled envelope whose stages take no time. -/
def fresh : Envelope where
  enabled := false
  pending := false
  stage := .off
  params := ⟨0, 0, 0, 0⟩
  attackStep := Fixed.one
  decayStep := Fixed.one
  sustainFactor := Fixed.zero
  releaseStep := ⟨131072⟩
  factor := Fixed.zero

/-- New parameters, cut to the limit, and the steps they give. -/
def configure (e : Envelope) (params : EnvelopeParams) : Except Fault Envelope := do
  let p := params.clamped
  let attackStep ← stepFor p.attack Fixed.one
  let decayStep ← stepFor p.decay Fixed.one
  let sustainFactor ← (← Fixed.one.divBy 127).times p.sustain.toUInt32
  let releaseStep ← stepFor p.release (← Fixed.one.times 2)
  return { e with params := p, attackStep, decayStep, sustainFactor, releaseStep }

/-- The start of a note: the factor begins at zero. -/
def trigger (e : Envelope) : Envelope :=
  { e with factor := Fixed.zero, stage := .attack, pending := true }

/-- The end of a note: release from whatever stage is running. -/
def release (e : Envelope) : Envelope :=
  { e with stage := .release }

/-- The factor rests at the sustain level. -/
def enterSustain (e : Envelope) : Envelope :=
  { e with factor := e.sustainFactor, stage := .sustain }

/-- One step of the attack. -/
def stepAttack (e : Envelope) : Except Fault Envelope := do
  let factor ← e.factor.add e.attackStep
  if Fixed.one ≤ factor then return { e with factor := Fixed.one, stage := .decay }
  else return { e with factor }

/-- One step of the decay. -/
def stepDecay (e : Envelope) : Except Fault Envelope := do
  if e.decayStep ≤ e.factor then
    let factor ← e.factor.sub e.decayStep
    if factor ≤ e.sustainFactor then return e.enterSustain
    else return { e with factor }
  else return e.enterSustain

/-- One step of the release. -/
def stepRelease (e : Envelope) : Except Fault Envelope := do
  if e.factor ≤ e.releaseStep then return { e with factor := Fixed.zero, stage := .off }
  else
    let factor ← e.factor.sub e.releaseStep
    return { e with factor }

/-- The factor is to be taken by the voice. -/
def markPending (e : Envelope) : Envelope := { e with pending := true }

/-- One modulation tick. -/
def step (e : Envelope) : Except Fault Envelope :=
  match e.stage with
  | .off | .sustain => .ok e
  | .attack => return (← e.stepAttack).markPending
  | .decay => return (← e.stepDecay).markPending
  | .release => return (← e.stepRelease).markPending

/-- The pending factor, if there is one, and the envelope without it. -/
def takePending (e : Envelope) : Option Fixed × Envelope :=
  if e.pending then (some e.factor, { e with pending := false }) else (none, e)

/-- The fresh envelope is the one configured with zeros. -/
theorem configure_fresh : fresh.configure ⟨0, 0, 0, 0⟩ = .ok fresh := rfl

end Envelope

end Chiptune
