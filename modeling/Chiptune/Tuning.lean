import Chiptune.Fixed
import Chiptune.NoteFrequency

/-!
# Tunings

A tuning holds the periods of the 128 notes at one sample rate. A period is the
sample rate divided by the frequency of the note, rounded to 53 significant bits
and then cut to a fixed-point number.
-/

set_option autoImplicit false

namespace Chiptune

/-- The period of a frequency, given in units of `2 ^ -49` Hz, in raw units.
Periods that do not fit the word become the largest one. -/
def periodUnits (rate frequency : Nat) : Nat :=
  min (Rounding.floorOfRounded ((rate * 65536) <<< 49) frequency) (UInt32.size - 1)

/-- The rate in samples per second that is used unless another is named. -/
def defaultSampleRate : UInt32 := 48000

/-- The periods, in samples per cycle, of all notes at one sample rate. -/
structure Tuning where
  sampleRate : UInt32
  periods : Vector Fixed 128

namespace Tuning

/-- The equal-tempered tuning at a sample rate. -/
def equalTempered (rate : UInt32) : Tuning where
  sampleRate := rate
  periods := Vector.ofFn fun note =>
    ⟨(periodUnits rate.toNat (noteFrequency (UInt8.ofNat note.val))).toUInt32⟩

/-- The period of a note. Notes from 128 on count from zero again. -/
def period (t : Tuning) (note : UInt8) : Fixed :=
  have : note.toNat % 128 < 128 := Nat.mod_lt _ (by decide)
  t.periods[note.toNat % 128]

end Tuning

end Chiptune
