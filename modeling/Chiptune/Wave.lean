import Chiptune.Checked

/-!
# WAV files

Samples as a RIFF file with one channel of 16-bit samples. The header holds
sizes as 32-bit words; a size that does not fit is a fault.
-/

set_option autoImplicit false

namespace Chiptune.Wave

/-- A 16-bit word, low byte first. -/
def le16 (w : UInt16) : List UInt8 := [w.toUInt8, (w >>> 8).toUInt8]

/-- A 32-bit word, low byte first. -/
def le32 (w : UInt32) : List UInt8 :=
  [w.toUInt8, (w >>> 8).toUInt8, (w >>> 16).toUInt8, (w >>> 24).toUInt8]

/-- The bytes of a chunk name. -/
def chunkName (s : String) : List UInt8 := s.toList.map fun c => c.toNat.toUInt8

/-- Bytes per sample. -/
def blockAlign : UInt16 := 2

/-- The header for a rate and a data size in bytes. -/
def header (rate dataSize : UInt32) : Except Fault (List UInt8) := do
  let riffSize ← Checked.add32 36 dataSize
  let byteRate ← Checked.mul32 rate blockAlign.toUInt32
  return chunkName "RIFF" ++ le32 riffSize ++ chunkName "WAVE" ++
    chunkName "fmt " ++ le32 16 ++ le16 1 ++ le16 1 ++ le32 rate ++ le32 byteRate ++
    le16 blockAlign ++ le16 16 ++
    chunkName "data" ++ le32 dataSize

/-- Appends samples to bytes, low byte first. -/
def appendSamples (bytes : ByteArray) (samples : Array Int16) : ByteArray :=
  samples.foldl
    (fun (bytes : ByteArray) (s : Int16) =>
      (bytes.push s.toUInt16.toUInt8).push (s.toUInt16 >>> 8).toUInt8)
    bytes

/-- The file of some samples at a rate. The count of samples is taken modulo
`2 ^ 32`. -/
def encode (samples : Array Int16) (rate : UInt32) : Except Fault ByteArray := do
  let dataSize ← Checked.mul32 samples.size.toUInt32 blockAlign.toUInt32
  let head ← header rate dataSize
  return appendSamples ⟨head.toArray⟩ samples

/-- What became of bytes that were written into limited room. -/
structure Written where
  buffer : ByteArray
  unused : Nat
  complete : Bool

/-- Writes bytes into `room` bytes of zeros; what does not fit is left out. -/
def writeInto (room : Nat) (bytes : ByteArray) : Written where
  buffer := bytes.extract 0 room ++ ⟨Array.replicate (room - bytes.size) 0⟩
  unused := room - bytes.size
  complete := bytes.size ≤ room

/-- The message when the room is too small. -/
def noRoomMessage : String := "io error: failed to write whole buffer"

end Chiptune.Wave
