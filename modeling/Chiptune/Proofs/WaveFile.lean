import Chiptune.Proofs.Faults
import Chiptune.Wave
import Mathlib.Data.Nat.ModEq

/-!
# Reading a WAV file back

A RIFF file is a chunk that holds chunks. A chunk is a name of four bytes, the size of its body as
a 32-bit word, the body, and a byte of padding after a body of odd size. `read` knows no more of
the format than that: it walks from chunk to chunk by the size fields (`firstChunk`, `chunks`),
looks for the format and the data by name, and takes the samples two bytes at a time.

The file of some samples is such a chunk (`encode_eq`), and the walk finds the chunks it was put
together from (`chunks_append`). So reading gives back the rate and the samples, and two files are
equal only for the same samples and the same rate (`read_encode`).
-/

set_option autoImplicit false

namespace Chiptune.Wave

/-! ## Words and samples -/

/-- The value of some bytes, low byte first. -/
def littleEndian : List UInt8 → Nat
  | [] => 0
  | b :: bytes => b.toNat + 256 * littleEndian bytes

@[simp] theorem littleEndian_le16 (w : UInt16) : littleEndian (le16 w) = w.toNat := by
  have hw := w.toNat_lt
  simp only [le16, littleEndian, UInt16.toNat_toUInt8, UInt16.toNat_shiftRight,
    Nat.shiftRight_eq_div_pow]
  have hshift : (8 : UInt16).toNat % 16 = 8 := rfl
  rw [hshift]
  omega

@[simp] theorem littleEndian_le32 (w : UInt32) : littleEndian (le32 w) = w.toNat := by
  have hw := w.toNat_lt
  simp only [le32, littleEndian, UInt32.toNat_toUInt8, UInt32.toNat_shiftRight,
    Nat.shiftRight_eq_div_pow]
  have h8 : (8 : UInt32).toNat % 32 = 8 := rfl
  have h16 : (16 : UInt32).toNat % 32 = 16 := rfl
  have h24 : (24 : UInt32).toNat % 32 = 24 := rfl
  rw [h8, h16, h24]
  omega

theorem toNat_double {w : UInt32} (hw : w.toNat < 2 ^ 31) : (w * 2).toNat = 2 * w.toNat := by
  rw [UInt32.toNat_mul]
  show w.toNat * 2 % 2 ^ 32 = _
  omega

/-- Two bytes for each of so many samples, if that fits a word. -/
theorem mul32_blockAlign (w : UInt32) : Checked.mul32 w blockAlign.toUInt32 =
    if w.toNat < 2 ^ 31 then .ok (w * 2) else .error .mulOverflow := by
  have hfits : w.toNat * blockAlign.toUInt32.toNat < UInt32.size ↔ w.toNat < 2 ^ 31 := by
    show w.toNat * 2 < 2 ^ 32 ↔ _
    omega
  rw [Checked.mul32, if_congr hfits rfl rfl]
  rfl

@[simp] theorem length_le16 (w : UInt16) : (le16 w).length = 2 := rfl

@[simp] theorem length_le32 (w : UInt32) : (le32 w).length = 4 := rfl

/-- The samples of some bytes: two bytes each, in two's complement. -/
def readSamples : List UInt8 → Option (List Int16)
  | [] => some []
  | [_] => none
  | low :: high :: bytes =>
      (readSamples bytes).map (Int16.ofInt (Int.bmod (littleEndian [low, high]) 65536) :: ·)

/-- The bytes of some samples. -/
def sampleBytes (samples : List Int16) : List UInt8 :=
  samples.flatMap fun s => le16 s.toUInt16

theorem length_sampleBytes (samples : List Int16) :
    (sampleBytes samples).length = 2 * samples.length := by
  induction samples with
  | nil => rfl
  | cons s samples ih =>
    simp only [sampleBytes, List.flatMap_cons, List.length_append, length_le16,
      List.length_cons] at ih ⊢
    omega

/-- The bytes of a sample are its two's complement. -/
theorem ofInt_littleEndian (s : Int16) :
    Int16.ofInt (Int.bmod (littleEndian (le16 s.toUInt16)) 65536) = s := by
  rw [littleEndian_le16]
  apply Int16.toInt_inj.1
  rw [Int16.toInt_ofInt, Int.bmod_bmod]
  exact (BitVec.toInt_eq_toNat_bmod s.toBitVec).symm

theorem readSamples_sampleBytes (samples : List Int16) :
    readSamples (sampleBytes samples) = some samples := by
  induction samples with
  | nil => rfl
  | cons s samples ih =>
    have hs := ofInt_littleEndian s
    simp only [le16] at hs
    simp only [sampleBytes, List.flatMap_cons, le16, List.cons_append, List.nil_append,
      readSamples] at ih ⊢
    rw [ih, hs]
    rfl

/-! ## Chunks -/

/-- A chunk as it was read: its name, the size that it states, and its body. -/
structure Chunk where
  name : List UInt8
  size : Nat
  body : List UInt8
  deriving DecidableEq, Repr

/-- The value of some bytes inside of others. -/
def field (bytes : List UInt8) (start width : Nat) : Nat :=
  littleEndian ((bytes.drop start).take width)

/-- The chunk at the front of some bytes, and what comes after it. -/
def firstChunk (bytes : List UInt8) : Option (Chunk × List UInt8) :=
  let size := field bytes 4 4
  let rest := bytes.drop 8
  -- a body of odd size has one more byte after it
  if 8 ≤ bytes.length ∧ size + size % 2 ≤ rest.length then
    some (⟨bytes.take 4, size, rest.take size⟩, rest.drop (size + size % 2))
  else none

theorem length_of_firstChunk {bytes rest : List UInt8} {c : Chunk}
    (h : firstChunk bytes = some (c, rest)) : rest.length < bytes.length := by
  simp only [firstChunk] at h
  split at h
  · rename_i hroom
    cases h
    simp only [List.length_drop]
    omega
  · cases h

/-- The chunks that some bytes are made of. -/
def chunks (bytes : List UInt8) : Option (List Chunk) :=
  match _h : firstChunk bytes with
  | some (c, rest) => (chunks rest).map (c :: ·)
  | none => if bytes = [] then some [] else none
termination_by bytes.length
decreasing_by exact length_of_firstChunk _h

/-- The bytes of a chunk. -/
def chunkBytes (name body : List UInt8) : List UInt8 :=
  name ++ le32 body.length.toUInt32 ++ body ++ List.replicate (body.length % 2) 0

theorem length_chunkBytes {name body : List UInt8} (hname : name.length = 4)
    (heven : body.length % 2 = 0) : (chunkBytes name body).length = 8 + body.length := by
  simp only [chunkBytes, List.length_append, List.length_replicate, length_le32]
  omega

/-- A chunk states the length of its body. A body of even length has no padding. -/
theorem chunkBytes_of_even {name body : List UInt8} {size : UInt32}
    (hsize : body.length = size.toNat) (heven : body.length % 2 = 0) :
    chunkBytes name body = name ++ (le32 size ++ body) := by
  have hword : body.length.toUInt32 = size := by
    rw [hsize]
    exact UInt32.ofNat_toNat
  rw [chunkBytes, hword, heven]
  simp only [List.replicate_zero, List.append_nil, List.append_assoc]

section Walk

variable {name body : List UInt8} (hname : name.length = 4) (hbody : body.length < 2 ^ 32)

include hname hbody

/-- The size field of a chunk takes the reader to the end of its body. -/
theorem firstChunk_append (rest : List UInt8) :
    firstChunk (chunkBytes name body ++ rest) = some (⟨name, body.length, body⟩, rest) := by
  have hsplit : chunkBytes name body ++ rest =
      name ++ (le32 body.length.toUInt32 ++
        (body ++ (List.replicate (body.length % 2) 0 ++ rest))) := by
    simp only [chunkBytes, List.append_assoc]
  have hsize : field (chunkBytes name body ++ rest) 4 4 = body.length := by
    rw [field, hsplit, List.drop_left' hname, List.take_left' (length_le32 _),
      littleEndian_le32]
    exact Nat.mod_eq_of_lt hbody
  have hafter : (chunkBytes name body ++ rest).drop 8 =
      body ++ (List.replicate (body.length % 2) 0 ++ rest) := by
    rw [hsplit, ← List.append_assoc]
    apply List.drop_left'
    rw [List.length_append, hname, length_le32]
  have hpad : body.length + body.length % 2 =
      (body ++ List.replicate (body.length % 2) (0 : UInt8)).length := by
    rw [List.length_append, List.length_replicate]
  simp only [firstChunk, hsize, hafter]
  rw [if_pos, List.take_left]
  · congr 2
    · rw [hsplit, List.take_left' hname]
    · rw [← List.append_assoc, hpad, List.drop_left]
  · rw [hsplit]
    simp only [List.length_append, List.length_replicate, length_le32, hname]
    omega

/-- The walk finds a chunk and goes on after it. -/
theorem chunks_append (rest : List UInt8) :
    chunks (chunkBytes name body ++ rest) =
      (chunks rest).map (⟨name, body.length, body⟩ :: ·) := by
  have hfirst := firstChunk_append hname hbody rest
  rw [chunks]
  split
  · rename_i c rest' h
    rw [hfirst] at h
    cases h
    rfl
  · rename_i h
    rw [hfirst] at h
    cases h

end Walk

theorem chunks_nil : chunks [] = some [] := by
  rw [chunks]
  rfl

/-! ## The reader -/

/-- What a format chunk says. -/
structure Format where
  tag : Nat
  channels : Nat
  rate : Nat
  byteRate : Nat
  blockAlign : Nat
  bits : Nat
  deriving DecidableEq, Repr

def Format.read (body : List UInt8) : Option Format :=
  if 16 ≤ body.length then
    some ⟨field body 0 2, field body 2 2, field body 4 4, field body 8 4, field body 12 2,
      field body 14 2⟩
  else none

/-- What is read from a file. -/
structure Recording where
  riffSize : Nat
  format : Format
  dataSize : Nat
  samples : List Int16
  deriving DecidableEq, Repr

/-- Reads a file with one channel of 16-bit samples. Other chunks may stand around the two that are
needed. -/
def read (bytes : List UInt8) : Option Recording := do
  let (riff, rest) ← firstChunk bytes
  guard (riff.name = chunkName "RIFF" ∧ riff.body.take 4 = chunkName "WAVE" ∧ rest = [])
  let inner ← chunks (riff.body.drop 4)
  let formatChunk ← inner.find? fun c => c.name = chunkName "fmt "
  let dataChunk ← inner.find? fun c => c.name = chunkName "data"
  let format ← Format.read formatChunk.body
  guard (format.tag = 1 ∧ format.channels = 1 ∧ format.bits = 16)
  let samples ← readSamples dataChunk.body
  return ⟨riff.size, format, dataChunk.size, samples⟩

/-! ## The file of some samples -/

/-- The body of the format chunk at a rate. -/
def formatBytes (rate : UInt32) : List UInt8 :=
  le16 1 ++ le16 1 ++ le32 rate ++ le32 (rate * 2) ++ le16 blockAlign ++ le16 16

/-- What the RIFF chunk holds. -/
def waveBytes (samples : List Int16) (rate : UInt32) : List UInt8 :=
  chunkName "WAVE" ++ (chunkBytes (chunkName "fmt ") (formatBytes rate) ++
    chunkBytes (chunkName "data") (sampleBytes samples))

theorem length_waveBytes (samples : List Int16) (rate : UInt32) :
    (waveBytes samples rate).length = 36 + 2 * samples.length := by
  have hformat : (formatBytes rate).length = 16 := rfl
  have hdata := length_sampleBytes samples
  rw [waveBytes, List.length_append, List.length_append, length_chunkBytes rfl (by omega),
    length_chunkBytes rfl (by omega), hformat, hdata]
  have hname : (chunkName "WAVE").length = 4 := rfl
  omega

/-- The samples come after the bytes that are there, in order. -/
theorem toList_appendSamples (bytes : ByteArray) (samples : Array Int16) :
    (appendSamples bytes samples).data.toList =
      bytes.data.toList ++ sampleBytes samples.toList := by
  rw [appendSamples, ← Array.foldl_toList]
  generalize samples.toList = rest
  induction rest generalizing bytes with
  | nil => simp [sampleBytes]
  | cons s rest ih =>
    rw [List.foldl_cons, ih]
    simp [sampleBytes, le16]

theorem size_appendSamples (bytes : ByteArray) (samples : Array Int16) :
    (appendSamples bytes samples).size = bytes.size + 2 * samples.size := by
  have hlist := congrArg List.length (toList_appendSamples bytes samples)
  rw [List.length_append, length_sampleBytes] at hlist
  exact hlist

/-- The header, where its sizes fit. -/
def headerBytes (rate dataSize : UInt32) : List UInt8 :=
  chunkName "RIFF" ++ le32 (36 + dataSize) ++ chunkName "WAVE" ++ chunkName "fmt " ++ le32 16 ++
    formatBytes rate ++ chunkName "data" ++ le32 dataSize

theorem header_eq {rate dataSize : UInt32} (hsize : 36 + dataSize.toNat < 2 ^ 32)
    (hrate : rate.toNat < 2 ^ 31) : header rate dataSize = .ok (headerBytes rate dataSize) := by
  have hriff : Checked.add32 36 dataSize = .ok (36 + dataSize) := Checked.add32_eq_ok hsize
  have hbytes : Checked.mul32 rate blockAlign.toUInt32 = .ok (rate * 2) := by
    rw [mul32_blockAlign, if_pos hrate]
  simp only [header, hriff, hbytes, bind, Except.bind, pure, Except.pure, headerBytes, formatBytes,
    List.append_assoc]

/-- The file is one RIFF chunk. -/
theorem encode_eq {samples : Array Int16} {rate : UInt32} (hsize : 36 + 2 * samples.size < 2 ^ 32)
    (hrate : rate.toNat < 2 ^ 31) :
    ∃ bytes, encode samples rate = .ok bytes ∧
      bytes.data.toList = chunkBytes (chunkName "RIFF") (waveBytes samples.toList rate) := by
  have hcount : samples.size.toUInt32.toNat = samples.size := Nat.mod_eq_of_lt (by omega)
  have hhalf : samples.size.toUInt32.toNat < 2 ^ 31 := by omega
  have hdata : Checked.mul32 samples.size.toUInt32 blockAlign.toUInt32 =
      .ok (samples.size.toUInt32 * 2) := by
    rw [mul32_blockAlign, if_pos hhalf]
  have hdouble : (samples.size.toUInt32 * 2).toNat = 2 * samples.size := by
    rw [toNat_double hhalf, hcount]
  have hfits : 36 + (samples.size.toUInt32 * 2).toNat < 2 ^ 32 := by omega
  have hhead := header_eq hfits hrate
  refine ⟨appendSamples ⟨(headerBytes rate (samples.size.toUInt32 * 2)).toArray⟩ samples, ?_, ?_⟩
  · simp only [encode, hdata, hhead, bind, Except.bind, pure, Except.pure]
  · -- the stated sizes are the lengths of the bodies
    have hdataSize : (sampleBytes samples.toList).length = (samples.size.toUInt32 * 2).toNat := by
      rw [hdouble, length_sampleBytes, Array.length_toList]
    have hriffSize : (waveBytes samples.toList rate).length =
        (36 + samples.size.toUInt32 * 2).toNat := by
      rw [UInt32.toNat_add, hdouble, length_waveBytes, Array.length_toList]
      exact (Nat.mod_eq_of_lt hsize).symm
    have hformatSize : (formatBytes rate).length = (16 : UInt32).toNat := rfl
    have hformatEven : (formatBytes rate).length % 2 = 0 := congrArg (· % 2) hformatSize
    have hriffEven : (waveBytes samples.toList rate).length % 2 = 0 := by
      rw [length_waveBytes]
      omega
    rw [toList_appendSamples, chunkBytes_of_even hriffSize hriffEven, waveBytes,
      chunkBytes_of_even hformatSize hformatEven, chunkBytes_of_even hdataSize (by omega)]
    simp only [headerBytes, List.append_assoc]

/-- A file that was written has two bytes for each sample, and its byte rate fits. -/
theorem encode_ok {samples : Array Int16} {rate : UInt32} {bytes : ByteArray}
    (h : encode samples rate = .ok bytes) :
    bytes.size = 44 + 2 * samples.size ∧ rate.toNat < 2 ^ 31 := by
  simp only [encode, header, bind_eq_ok, pure, Except.pure, Except.ok.injEq] at h
  obtain ⟨dataSize, -, head, ⟨riffSize, -, byteRate, hrate, rfl⟩, rfl⟩ := h
  constructor
  · rw [size_appendSamples]
    rfl
  · rw [mul32_blockAlign] at hrate
    split at hrate
    · assumption
    · cases hrate

/-- What the file of some samples says. -/
def recording (samples : List Int16) (rate : UInt32) : Recording where
  riffSize := 36 + 2 * samples.length
  format := ⟨1, 1, rate.toNat, 2 * rate.toNat, 2, 16⟩
  dataSize := 2 * samples.length
  samples

theorem Format.read_formatBytes {rate : UInt32} (hrate : rate.toNat < 2 ^ 31) :
    Format.read (formatBytes rate) = some ⟨1, 1, rate.toNat, 2 * rate.toNat, 2, 16⟩ := by
  have hrateField : field (formatBytes rate) 4 4 = rate.toNat := littleEndian_le32 rate
  have hbytesField : field (formatBytes rate) 8 4 = (rate * 2).toNat := littleEndian_le32 (rate * 2)
  have hlength : 16 ≤ (formatBytes rate).length := Nat.le_refl 16
  rw [Format.read, if_pos hlength, hrateField, hbytesField, toNat_double hrate]
  rfl

theorem read_chunkBytes (samples : List Int16) {rate : UInt32}
    (hsize : 36 + 2 * samples.length < 2 ^ 32) (hrate : rate.toNat < 2 ^ 31) :
    read (chunkBytes (chunkName "RIFF") (waveBytes samples rate)) =
      some (recording samples rate) := by
  have hlength := length_waveBytes samples rate
  have hdata := length_sampleBytes samples
  have hriff : (chunkName "RIFF").length = 4 := rfl
  have hfits : (waveBytes samples rate).length < 2 ^ 32 := by omega
  have houter := firstChunk_append hriff hfits []
  rw [List.append_nil] at houter
  have hwave : (waveBytes samples rate).take 4 = chunkName "WAVE" := List.take_left' rfl
  -- inside stand the format and the data, and nothing after them
  have hinner : chunks ((waveBytes samples rate).drop 4) =
      some [⟨chunkName "fmt ", 16, formatBytes rate⟩,
        ⟨chunkName "data", (sampleBytes samples).length, sampleBytes samples⟩] := by
    have hdataName : (chunkName "data").length = 4 := rfl
    have hdataFits : (sampleBytes samples).length < 2 ^ 32 := by omega
    have hlast := chunks_append hdataName hdataFits []
    rw [List.append_nil, chunks_nil] at hlast
    have hname : (chunkName "WAVE").length = 4 := rfl
    have hformat : (formatBytes rate).length < 2 ^ 32 := (by decide : 16 < 2 ^ 32)
    rw [waveBytes, List.drop_left' hname, chunks_append rfl hformat, hlast]
    rfl
  have hother : chunkName "fmt " ≠ chunkName "data" := by decide
  have hpass : ∀ {P : Prop} [Decidable P], P → (guard P : Option Unit) = some () :=
    fun hP => if_pos hP
  simp [read, houter, hwave, hinner, hother, hpass, Format.read_formatBytes hrate,
    readSamples_sampleBytes, recording, hlength, hdata]

/-- Any samples at any rate that fit the sizes of the header have a file of 44 bytes and two more
for each sample. Reading it gives the rate and the samples back, with all sizes as they are, and no
other samples or rate have the same file. -/
theorem read_encode (samples : Array Int16) (rate : UInt32)
    (hsize : 36 + 2 * samples.size < 2 ^ 32) (hrate : rate.toNat < 2 ^ 31) :
    ∃ bytes, encode samples rate = .ok bytes ∧ bytes.size = 44 + 2 * samples.size ∧
      read bytes.data.toList =
        some { riffSize := bytes.size - 8
               format := { tag := 1, channels := 1, rate := rate.toNat,
                           byteRate := 2 * rate.toNat, blockAlign := 2, bits := 16 }
               dataSize := 2 * samples.size
               samples := samples.toList } ∧
      ∀ samples' rate', encode samples' rate' = .ok bytes → samples' = samples ∧ rate' = rate := by
  obtain ⟨bytes, hok, hbytes⟩ := encode_eq hsize hrate
  have hread := read_chunkBytes samples.toList hsize hrate
  rw [← hbytes] at hread
  have hlength := (encode_ok hok).1
  refine ⟨bytes, hok, hlength, ?_, ?_⟩
  · rw [hread, recording, hlength]
    simp only [Array.length_toList]
    congr 2
    omega
  · intro samples' rate' hok'
    -- the length of the file gives the number of samples, so the other file can be read as well
    obtain ⟨hlength', hrate'⟩ := encode_ok hok'
    have hsize' : 36 + 2 * samples'.size < 2 ^ 32 := by omega
    obtain ⟨bytes', hbytes₁, hbytes'⟩ := encode_eq hsize' hrate'
    cases hok'.symm.trans hbytes₁
    have hread' := read_chunkBytes samples'.toList hsize' hrate'
    rw [← hbytes', hread] at hread'
    have hsame := Option.some.inj hread'
    have hsamples : samples.toList = samples'.toList := congrArg Recording.samples hsame
    have hrates : rate.toNat = rate'.toNat := congrArg (·.format.rate) hsame
    exact ⟨Array.toList_inj.1 hsamples.symm, UInt32.toNat_inj.1 hrates.symm⟩

/-- The ends of the range of a sample at the largest rate. -/
theorem read_encode_extremes :
    36 + 2 * #[(-32768 : Int16), -1, 32767].size < 2 ^ 32 ∧ (2147483647 : UInt32).toNat < 2 ^ 31 ∧
      ∃ bytes, encode #[-32768, -1, 32767] 2147483647 = .ok bytes ∧ bytes.size = 50 ∧
        read bytes.data.toList =
          some ⟨42, ⟨1, 1, 2147483647, 4294967294, 2, 16⟩, 6, [-32768, -1, 32767]⟩ := by
  obtain ⟨bytes, hok, hlength, hread, -⟩ :=
    read_encode #[-32768, -1, 32767] 2147483647 (by decide) (by decide)
  refine ⟨by decide, by decide, bytes, hok, hlength, hread.trans ?_⟩
  rw [hlength]
  rfl

end Chiptune.Wave
