import Chiptune.Proofs.Causality
import Chiptune.Proofs.WaveFile

/-!
# The limits of a WAV header

Three words of the header grow with what is written: the size of the RIFF chunk, the size of the
data, and the bytes for a second. Each is calculated with a check, and one that does not fit is a
fault. The number of samples, though, is cut to 32 bits before the first check, so what is checked
and stated belongs to the number modulo `2 ^ 32` (`encode_cases`).

With fewer samples than that nothing is cut: a value that does not fit is a fault, and a file that
is written states its own sizes. With more of them a file may be written that states the sizes of a
shorter one (`header_holds_unless_count_wraps`), and a patch can be long enough for that
(`long_silence_is_misstated`).
-/

set_option autoImplicit false

namespace Chiptune

namespace Wave

/-! ## What the header states -/

/-- The sizes and the byte rate in the header of a file are its own. -/
structure Truthful (bytes : List UInt8) : Prop where
  riffSize : field bytes 4 4 = bytes.length - 8
  dataSize : field bytes 40 4 = bytes.length - 44
  byteRate : field bytes 28 4 = 2 * field bytes 24 4

/-- The number of samples in the words of the header. -/
def counted (samples : Array Int16) : Nat := samples.size % 2 ^ 32

/-- The data size in the words of the header. -/
def statedSize (samples : Array Int16) : UInt32 := samples.size.toUInt32 * 2

/-- The file of some samples, where the checks pass. -/
def file (samples : Array Int16) (rate : UInt32) : ByteArray :=
  appendSamples ⟨(headerBytes rate (statedSize samples)).toArray⟩ samples

section Fields

variable (rate dataSize : UInt32) (rest : List UInt8)

theorem field_riffSize :
    field (headerBytes rate dataSize ++ rest) 4 4 = (36 + dataSize).toNat :=
  littleEndian_le32 _

theorem field_rate : field (headerBytes rate dataSize ++ rest) 24 4 = rate.toNat :=
  littleEndian_le32 _

theorem field_byteRate : field (headerBytes rate dataSize ++ rest) 28 4 = (rate * 2).toNat :=
  littleEndian_le32 _

theorem field_dataSize : field (headerBytes rate dataSize ++ rest) 40 4 = dataSize.toNat :=
  littleEndian_le32 _

end Fields

variable {samples : Array Int16} {rate : UInt32}

theorem toNat_count (samples : Array Int16) : samples.size.toUInt32.toNat = counted samples :=
  UInt32.toNat_ofNat'

theorem toNat_statedSize (hcount : counted samples < 2 ^ 31) :
    (statedSize samples).toNat = 2 * counted samples := by
  rw [← toNat_count] at hcount ⊢
  exact toNat_double hcount

theorem toList_file (samples : Array Int16) (rate : UInt32) : (file samples rate).data.toList =
    headerBytes rate (statedSize samples) ++ sampleBytes samples.toList :=
  toList_appendSamples _ _

theorem length_file (samples : Array Int16) (rate : UInt32) :
    (file samples rate).data.toList.length = 44 + 2 * samples.size := by
  rw [toList_file, List.length_append, length_sampleBytes, Array.length_toList]
  rfl

/-- All samples are in the file, so it states its own sizes if all of them are counted. -/
theorem truthful_file_iff (hsize : 36 + 2 * counted samples < 2 ^ 32) (hrate : rate.toNat < 2 ^ 31) :
    Truthful (file samples rate).data.toList ↔ samples.size < 2 ^ 32 := by
  have hstated : (statedSize samples).toNat = 2 * counted samples := toNat_statedSize (by omega)
  have hlength := length_file samples rate
  have hcounted : counted samples = samples.size ↔ samples.size < 2 ^ 32 :=
    Nat.mod_eq_iff_lt (by decide)
  rw [← hcounted]
  -- the data size alone tells: the two others are right whenever it is
  constructor
  · rintro ⟨-, hdata, -⟩
    rw [hlength, toList_file, field_dataSize, hstated] at hdata
    omega
  · intro hsame
    constructor
    · rw [hlength, toList_file, field_riffSize, UInt32.toNat_add, hstated, hsame]
      show (36 + 2 * samples.size) % 2 ^ 32 = _
      omega
    · rw [hlength, toList_file, field_dataSize, hstated, hsame]
      omega
    · rw [toList_file, field_byteRate, field_rate, toNat_double hrate]

/-! ## Which check fails -/

/-- The header as a result of its two checks. -/
theorem header_cases (rate dataSize : UInt32) :
    (2 ^ 32 ≤ 36 + dataSize.toNat ∧ header rate dataSize = .error .addOverflow) ∨
    (36 + dataSize.toNat < 2 ^ 32 ∧ 2 ^ 31 ≤ rate.toNat ∧
      header rate dataSize = .error .mulOverflow) ∨
    (36 + dataSize.toNat < 2 ^ 32 ∧ rate.toNat < 2 ^ 31 ∧
      header rate dataSize = .ok (headerBytes rate dataSize)) := by
  rcases Nat.lt_or_ge (36 + dataSize.toNat) (2 ^ 32) with hsize | hsize
  · rcases Nat.lt_or_ge rate.toNat (2 ^ 31) with hrate | hrate
    · exact Or.inr (Or.inr ⟨hsize, hrate, header_eq hsize hrate⟩)
    · refine Or.inr (Or.inl ⟨hsize, hrate, ?_⟩)
      have hriff : Checked.add32 36 dataSize = .ok (36 + dataSize) := Checked.add32_eq_ok hsize
      rw [header, hriff, mul32_blockAlign, if_neg (Nat.not_lt.2 hrate)]
      rfl
  · refine Or.inl ⟨hsize, ?_⟩
    have hriff : Checked.add32 36 dataSize = .error .addOverflow := if_neg (Nat.not_lt.2 hsize)
    rw [header, hriff]
    rfl

/-- The three checks in their order, and the file if all of them pass. -/
theorem encode_cases (samples : Array Int16) (rate : UInt32) :
    (2 ^ 31 ≤ counted samples ∧ encode samples rate = .error .mulOverflow) ∨
    (counted samples < 2 ^ 31 ∧ 2 ^ 32 ≤ 36 + 2 * counted samples ∧
      encode samples rate = .error .addOverflow) ∨
    (36 + 2 * counted samples < 2 ^ 32 ∧ 2 ^ 31 ≤ rate.toNat ∧
      encode samples rate = .error .mulOverflow) ∨
    (36 + 2 * counted samples < 2 ^ 32 ∧ rate.toNat < 2 ^ 31 ∧
      encode samples rate = .ok (file samples rate)) := by
  rcases Nat.lt_or_ge (counted samples) (2 ^ 31) with hcount | hcount
  · have hencode : encode samples rate = header rate (statedSize samples) >>= fun head =>
        pure (appendSamples ⟨head.toArray⟩ samples) := by
      rw [encode, mul32_blockAlign, toNat_count, if_pos hcount]
      rfl
    -- the rest is up to the header, which sees the stated size alone
    rw [hencode, ← toNat_statedSize hcount]
    rcases header_cases rate (statedSize samples) with
      ⟨hsize, hhead⟩ | ⟨hsize, hrate, hhead⟩ | ⟨hsize, hrate, hhead⟩
    · rw [hhead]
      exact Or.inr (Or.inl ⟨hcount, hsize, rfl⟩)
    · rw [hhead]
      exact Or.inr (Or.inr (Or.inl ⟨hsize, hrate, rfl⟩))
    · rw [hhead]
      exact Or.inr (Or.inr (Or.inr ⟨hsize, hrate, rfl⟩))
  · refine Or.inl ⟨hcount, ?_⟩
    rw [encode, mul32_blockAlign, toNat_count, if_neg (Nat.not_lt.2 hcount)]
    rfl

/-- The result is the fault of an addition or a multiplication that does not fit. -/
def Overflows {α : Type} (x : Except Fault α) : Prop :=
  x = .error .addOverflow ∨ x = .error .mulOverflow

/-- A file or an overflow, by what the header counts. -/
theorem overflows_or_file (samples : Array Int16) (rate : UInt32) :
    ((2 ^ 32 ≤ 36 + 2 * counted samples ∨ 2 ^ 31 ≤ rate.toNat) ∧
      Overflows (encode samples rate)) ∨
    (36 + 2 * counted samples < 2 ^ 32 ∧ rate.toNat < 2 ^ 31 ∧
      encode samples rate = .ok (file samples rate)) := by
  rcases encode_cases samples rate with
    ⟨hcount, hfault⟩ | ⟨-, hsize, hfault⟩ | ⟨-, hrate, hfault⟩ | hfile
  · exact Or.inl ⟨Or.inl (by omega), Or.inr hfault⟩
  · exact Or.inl ⟨Or.inl hsize, Or.inl hfault⟩
  · exact Or.inl ⟨Or.inr hrate, Or.inr hfault⟩
  · exact Or.inr hfile

/-- Any samples at any rate. If the byte rate does not fit, or the sizes do not and there are fewer
than `2 ^ 32` samples, the result is an overflow. In general it is one exactly if the byte rate does
not fit or the sizes for the number of samples modulo `2 ^ 32` do not. Otherwise there is a file of
all samples, and its header is true if and only if there are fewer than `2 ^ 32` of them. -/
theorem header_holds_unless_count_wraps (samples : Array Int16) (rate : UInt32) :
    (samples.size < 2 ^ 32 ∧ 2 ^ 32 ≤ 36 + 2 * samples.size ∨ 2 ^ 31 ≤ rate.toNat →
      Overflows (encode samples rate)) ∧
    (Overflows (encode samples rate) ↔
      2 ^ 32 ≤ 36 + 2 * (samples.size % 2 ^ 32) ∨ 2 ^ 31 ≤ rate.toNat) ∧
    (Overflows (encode samples rate) ∨
      ∃ bytes, encode samples rate = .ok bytes ∧ bytes.size = 44 + 2 * samples.size ∧
        (Truthful bytes.data.toList ↔ samples.size < 2 ^ 32)) := by
  rcases overflows_or_file samples rate with ⟨hlimit, hoverflow⟩ | ⟨hsize, hrate, hfile⟩
  · exact ⟨fun _ => hoverflow, ⟨fun _ => hlimit, fun _ => hoverflow⟩, Or.inl hoverflow⟩
  · have hok : ¬ Overflows (encode samples rate) := by
      rw [hfile]
      rintro (h | h) <;> cases h
    have hfits : ¬ (2 ^ 32 ≤ 36 + 2 * counted samples ∨ 2 ^ 31 ≤ rate.toNat) := by omega
    refine ⟨?_, ⟨fun h => absurd h hok, fun h => absurd h hfits⟩,
      Or.inr ⟨_, hfile, length_file samples rate, truthful_file_iff hsize hrate⟩⟩
    rintro (⟨hshort, hlong⟩ | hfast)
    · -- below `2 ^ 32` samples the header counts all of them
      have hall : counted samples = samples.size := Nat.mod_eq_of_lt hshort
      omega
    · omega

end Wave

/-! ## A patch that is too long -/

/-- Nothing in a patch without commands can fault. -/
theorem Patch.render_of_no_commands {p : Patch} (hrate : p.HasValidRate)
    (hchannels : p.channels = []) (hevents : p.events = []) : ∃ r, p.render = .ok r := by
  have hquiet : p.eventList p.sampleRate = [] := by
    rw [eventList, setupCommands, hchannels, hevents]
    rfl
  have hmoves : ∀ m ∈ p.moves, m = .mix ∨ m = .modulate := by
    intro m hm
    simp only [moves, hquiet, score, sampleMoves, List.filter_nil, List.map_nil, List.nil_append,
      List.mem_flatMap, List.mem_cons] at hm
    obtain ⟨i, -, hmix | hrest⟩ := hm
    · exact Or.inl hmix
    · split at hrest
      · exact Or.inr (List.mem_singleton.1 hrest)
      · cases hrest
  have hcentred (first : List Move) (m : Move) (rest : List Move) (s : Synth Lfsr)
      (hsplit : p.moves = first ++ m :: rest) : s.Centred m := by
    have hm : m ∈ p.moves := by
      rw [hsplit]
      exact List.mem_append_right _ List.mem_cons_self
    rcases hmoves m hm with rfl | rfl <;> trivial
  have hbounded := Tuning.equalTempered_bounded (UInt32.le_iff_toNat_le.1 hrate.2)
  obtain ⟨s, hrun⟩ := (Synth.steady_tuned hbounded (Lfsr.seeded Lfsr.defaultSeed)).run
    fun first m rest s hsplit _ => hcentred first m rest s hsplit
  cases hrender : p.render with
  | ok r => exact ⟨r, rfl⟩
  | error halt =>
    have hfault := (p.render_eq_error halt.fault).1 ⟨halt, hrender, rfl⟩
    cases hfault.symm.trans hrun

/-- A patch of `2 ^ 32` milliseconds of silence is rendered and written, though its sizes fit no
word. Its file of more than eight gigabytes states that it has no data. -/
theorem Wave.long_silence_is_misstated :
    let p : Patch := { sampleRate := 1000, lengthMs := 4294967296, channels := [], events := [] }
    p.HasValidRate ∧ ∃ r bytes, p.render = .ok r ∧ r.samples.size = 2 ^ 32 ∧
      2 ^ 32 ≤ 36 + 2 * r.samples.size ∧ encode r.samples 1000 = .ok bytes ∧
      bytes.size = 44 + 2 ^ 33 ∧ field bytes.data.toList 4 4 = 36 ∧
      field bytes.data.toList 40 4 = 0 := by
  intro p
  have hrate : p.HasValidRate := by decide
  obtain ⟨r, hrender⟩ := Patch.render_of_no_commands hrate rfl rfl
  have hsize : r.samples.size = 2 ^ 32 := by
    rw [Patch.size_of_render hrender]
    exact toNat_samplesOfMilliseconds 4294967296 1000
  -- all of the samples are lost from the count
  have hcounted : counted r.samples = 0 := by
    rw [counted, hsize, Nat.mod_self]
  have hstated : statedSize r.samples = 0 := by
    apply UInt32.toNat_inj.1
    rw [toNat_statedSize (by omega), hcounted]
    rfl
  rcases overflows_or_file r.samples 1000 with ⟨hlimit, -⟩ | ⟨-, -, hfile⟩
  · rw [hcounted] at hlimit
    exact absurd hlimit (by decide)
  · refine ⟨hrate, r, file r.samples 1000, hrender, hsize, by omega, hfile, ?_, ?_, ?_⟩
    · have hlength := length_file r.samples 1000
      rw [hsize] at hlength
      exact hlength
    · rw [toList_file, field_riffSize, hstated]
      rfl
    · rw [toList_file, field_dataSize, hstated]
      rfl

end Chiptune
