import Chiptune.Patch
import Chiptune.Player

/-!
# Rendering

A patch is rendered by a player at the patch's own sample rate. The voices are
those of the player after its last sample, which may have generated ahead of
the samples that were taken.
-/

set_option autoImplicit false

namespace Chiptune

/-- The samples of a patch, the voices at the end, and the notices made on the
way. -/
structure Render where
  sampleRate : UInt32
  samples : Array Int16
  voices : List (Channel × Voice)
  notices : List Notice

/-- The voices of a synthesizer in the order of the channels. -/
def Synth.voices {ρ : Type} (s : Synth ρ) : List (Channel × Voice) :=
  Channel.all.map fun c => (c, s.voice c)

namespace Patch

/-- A player for the patch at a sample rate, with the default noise. -/
def player (p : Patch) (rate : UInt32) : Player Lfsr :=
  Player.start (Synth.fresh rate (Lfsr.seeded Lfsr.defaultSeed)) (p.timeline rate)

/-- All samples of the patch. -/
def render (p : Patch) : Except (Halt Lfsr) Render := do
  let total := (p.lengthSamples p.sampleRate).toNat
  let (samples, player) ← (p.player p.sampleRate).take total #[]
  return {
    sampleRate := p.sampleRate
    samples
    voices := player.synth.voices
    notices := player.noticesSince 0 }

end Patch

/-- The message when live playback finds no device to play on. -/
def noDeviceMessage : String := "audio error: no audio device available"

end Chiptune
