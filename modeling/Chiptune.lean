import Chiptune.Fixed.Binary64
import Chiptune.Main
import Chiptune.Proofs.Faults
import Chiptune.Proofs.RingQueue
import Chiptune.Proofs.RingTraces
import Chiptune.Proofs.TimeOrder
import Chiptune.Proofs.Playback
import Chiptune.Proofs.Scheduling
import Chiptune.Proofs.Commands
import Chiptune.Proofs.Ticks
import Chiptune.Proofs.Moves
import Chiptune.Proofs.Overflow
import Chiptune.Proofs.RenderFaults
import Chiptune.Proofs.Levels
import Chiptune.Proofs.Channels
import Chiptune.Proofs.Release
import Chiptune.Proofs.Limits
import Chiptune.Proofs.Headroom
import Chiptune.Proofs.Causality
import Chiptune.Proofs.FinalVoices
import Chiptune.Proofs.Handshake
import Chiptune.Proofs.JsonText
import Chiptune.Proofs.PatchText
import Chiptune.Proofs.Coherence
import Chiptune.Proofs.Fading
import Chiptune.Proofs.Restart
import Chiptune.Proofs.Silence
import Chiptune.Proofs.VibratoCycles
import Chiptune.Proofs.EnvelopeCourse
import Chiptune.Proofs.Drains
import Chiptune.Proofs.Retrigger
import Chiptune.Proofs.PhaseClock
import Chiptune.Proofs.RampSteps
import Chiptune.Proofs.SquareWave
import Chiptune.Proofs.TriangleWave
import Chiptune.Proofs.NoiseDraws
import Chiptune.Proofs.PatchEvents
import Chiptune.Proofs.PatchSetup
import Chiptune.Proofs.WaveFile
import Chiptune.Proofs.WaveLimits
import Chiptune.Proofs.RegisterPeriod
