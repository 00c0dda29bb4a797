import Chiptune.Proofs.EnvelopeCourse
import Mathlib.Data.Nat.ModEq

/-!
# The bits of the noise

The noise counts its samples down from the prescaler. The sample that finds the count at zero
draws a bit, takes the factor of the envelope if one is pending, and starts the count over.
Any other sample repeats the level of the one before. What is done to the envelope in between
reaches neither the count nor the levels.

That a bit was drawn cannot be seen from the noise, so the source tells: a `Logged` source
keeps the bits that were drawn from it, and a run is the same with it as without
(`watch_forget`). `Counts` ties the count to the number of samples since the note started.
Every touch keeps it (`Counts.next`, `Counts.touch_envelope`), so in every run the source has
given one bit for each `p + 1` samples, and the samples change only there
(`draws_keep_schedule`).
-/

set_option autoImplicit false

namespace Chiptune

/-! ## Sources that keep a log -/

section Take

variable {ρ : Type} [BitSource ρ]

/-- One more bit is drawn from what the others have left. -/
theorem BitSource.take_succ (k : Nat) (source : ρ) :
    take (k + 1) source =
      ((take k source).1 ++ [(draw (take k source).2).1], (draw (take k source).2).2) := by
  induction k generalizing source with
  | zero => rfl
  | succ k ih =>
    have hfirst : take (k + 2) source = ((draw source).1 :: (take (k + 1) (draw source).2).1,
        (take (k + 1) (draw source).2).2) := rfl
    rw [hfirst, ih]
    rfl

theorem BitSource.length_take (k : Nat) (source : ρ) : (take k source).1.length = k := by
  induction k with
  | zero => rfl
  | succ k ih => simp [take_succ, ih]

end Take

/-- A bit source, and the bits that were drawn from it in their order. -/
structure Logged (ρ : Type) where
  source : ρ
  drawn : List Bool

namespace Logged

variable {ρ : Type}

/-- A source from which nothing was drawn. -/
def start (source : ρ) : Logged ρ := ⟨source, []⟩

variable [BitSource ρ]

/-- Draws from the source and writes the bit down. -/
def draw (r : Logged ρ) : Bool × Logged ρ :=
  ((BitSource.draw r.source).1,
    ⟨(BitSource.draw r.source).2, r.drawn ++ [(BitSource.draw r.source).1]⟩)

instance : BitSource (Logged ρ) := ⟨draw⟩

/-- The source after its first `k` bits. -/
def after (source : ρ) (k : Nat) : Logged ρ :=
  ⟨(BitSource.take k source).2, (BitSource.take k source).1⟩

theorem draw_after (source : ρ) (k : Nat) :
    (BitSource.draw (after source k)).2 = after source (k + 1) := by
  simp only [after, BitSource.take_succ]
  rfl

end Logged

namespace Noise

variable {ρ : Type}

/-! ## What is done to the noise while a note lasts -/

/-- A sample, a modulation tick, or something done to the envelope alone. A modulation tick
steps the envelope only if it is enabled. -/
inductive Touch where
  | sample
  | modulate
  | stepEnvelope
  | configureEnvelope (params : EnvelopeParams)
  | enableEnvelope (enabled : Bool)
  deriving DecidableEq, Repr

def withEnvelope (v : Noise) (envelope : Envelope) : Noise :=
  { v with amplitude := { v.amplitude with envelope } }

/-- A sample, and the source after it. -/
structure Heard (ρ : Type) where
  sample : Int16
  source : ρ

/-- The sample with the source that has no log. -/
def Heard.forget (h : Heard (Logged ρ)) : Heard ρ := ⟨h.sample, h.source.source⟩

variable [BitSource ρ]

/-- The sample of a touch if it gives one, and the noise and the source after it. -/
def touch (v : Noise) (source : ρ) : Touch → Except Fault (Option Int16 × Noise × ρ)
  | .sample => do
      let (x, v, source) ← v.next source
      return (some x, v, source)
  | .modulate => do
      let v ← v.modulateEnvelope
      return (none, v, source)
  | .stepEnvelope => do
      let envelope ← v.amplitude.envelope.step
      return (none, v.withEnvelope envelope, source)
  | .configureEnvelope params => do
      let v ← v.perform (.configureEnvelope params)
      return (none, v, source)
  | .enableEnvelope enabled =>
      .ok (none, { v with amplitude := v.amplitude.setEnvelope enabled }, source)

/-- The samples of a list of touches, and the noise and the source after them. -/
def watch : List Touch → Noise → ρ → Except Fault (List (Heard ρ) × Noise × ρ)
  | [], v, source => .ok ([], v, source)
  | x :: touches, v, source => do
      let (sample, v, source) ← v.touch source x
      let (heard, v, last) ← watch touches v source
      return ((sample.map (Heard.mk · source)).toList ++ heard, v, last)

/-- The touches after the first one see what it has left. -/
theorem watch_cons {x : Touch} {touches : List Touch} {v v₁ v' : Noise} {source source₁ last : ρ}
    {sample : Option Int16} {heard : List (Heard ρ)}
    (hx : v.touch source x = .ok (sample, v₁, source₁))
    (hrest : watch touches v₁ source₁ = .ok (heard, v', last)) :
    watch (x :: touches) v source =
      .ok ((sample.map (Heard.mk · source₁)).toList ++ heard, v', last) := by
  simp only [watch, hx, hrest, bind, Except.bind]
  rfl

/-! ## A log changes nothing -/

/-- A sample from a logged source is one from the source inside. -/
theorem next_forget {v v' : Noise} {r r' : Logged ρ} {x : Int16}
    (h : v.next r = .ok (x, v', r')) : v.next r.source = .ok (x, v', r'.source) := by
  rcases v.next_cases r with ⟨hzero, hok⟩ | ⟨hne, hok⟩
  · rw [h] at hok
    cases hok
    rcases v.next_cases r.source with ⟨-, hok'⟩ | ⟨hne, -⟩
    · exact hok'
    · exact absurd hzero hne
  · rw [h] at hok
    cases hok
    rcases v.next_cases r.source with ⟨hzero, -⟩ | ⟨-, hok'⟩
    · exact absurd hzero hne
    · exact hok'

theorem touch_forget {v v' : Noise} {r r' : Logged ρ} {x : Touch} {sample : Option Int16}
    (h : v.touch r x = .ok (sample, v', r')) :
    v.touch r.source x = .ok (sample, v', r'.source) := by
  cases x with
  | sample =>
    obtain ⟨⟨y, v₁, r₁⟩, hnext, hrest⟩ := bind_eq_ok.1 h
    cases hrest
    simp only [touch, next_forget hnext, bind, Except.bind]
    rfl
  | modulate =>
    obtain ⟨v₁, hmodulate, hrest⟩ := bind_eq_ok.1 h
    cases hrest
    simp only [touch, hmodulate, bind, Except.bind]
    rfl
  | stepEnvelope =>
    obtain ⟨envelope, hstep, hrest⟩ := bind_eq_ok.1 h
    cases hrest
    simp only [touch, hstep, bind, Except.bind]
    rfl
  | configureEnvelope params =>
    obtain ⟨v₁, hperform, hrest⟩ := bind_eq_ok.1 h
    cases hrest
    simp only [touch, hperform, bind, Except.bind]
    rfl
  | enableEnvelope enabled =>
    cases h
    rfl

/-- A run with a logged source is one with the source inside. -/
theorem watch_forget (touches : List Touch) {v v' : Noise} {r r' : Logged ρ}
    {heard : List (Heard (Logged ρ))} (h : watch touches v r = .ok (heard, v', r')) :
    watch touches v r.source = .ok (heard.map Heard.forget, v', r'.source) := by
  induction touches generalizing v r heard with
  | nil =>
    cases h
    rfl
  | cons x touches ih =>
    obtain ⟨⟨sample, v₁, r₁⟩, hx, hrest⟩ := bind_eq_ok.1 h
    obtain ⟨⟨later, v₂, r₂⟩, hlater, hend⟩ := bind_eq_ok.1 hrest
    cases hend
    rw [watch_cons (touch_forget hx) (ih hlater)]
    cases sample <;> rfl

/-! ## The count -/

/-- The count of a noise `k` samples after its note started, with a prescaler of `p`. -/
structure Counts (p k : Nat) (v : Noise) : Prop where
  prescaler : v.prescaler.toNat = p
  counter : v.counter.toNat + k % (p + 1) = p
  bounded : v.amplitude.envelope.Bounded

/-- The noise is at the level of an earlier one, and the last bit is the same. -/
structure Repeats (v' v : Noise) : Prop where
  output : v'.output = v.output
  isHigh : v'.isHigh = v.isHigh

section Counts

variable {p k : Nat} {v : Noise}

/-- The count has run out when the next sample completes a row of `p + 1`. -/
theorem Counts.counter_eq_zero_iff (h : v.Counts p k) : v.counter = 0 ↔ p + 1 ∣ k + 1 := by
  have hcounter := h.counter
  rw [Nat.dvd_iff_mod_eq_zero, Nat.succ_mod_succ_eq_zero_iff, ← UInt8.toNat_inj]
  show v.counter.toNat = 0 ↔ _
  omega

/-- What a sample does to the count, the source and the level. -/
theorem Counts.next (h : v.Counts p k) (source : ρ) :
    ∃ v' source', v.next source = .ok (v'.output, v', source') ∧ v'.Counts p (k + 1) ∧
      ((p + 1 ∣ k + 1 ∧ (v'.isHigh, source') = BitSource.draw source) ∨
        (¬ p + 1 ∣ k + 1 ∧ source' = source ∧ v'.Repeats v)) := by
  have hzero := h.counter_eq_zero_iff
  have hcounter := h.counter
  rcases v.next_cases source with ⟨hrunOut, hok⟩ | ⟨hrunning, hok⟩
  · have hdraws := hzero.1 hrunOut
    refine ⟨_, _, hok, ⟨h.prescaler, ?_, Amplitude.bounded_refresh h.bounded⟩,
      Or.inl ⟨hdraws, rfl⟩⟩
    -- the count starts over at the prescaler
    rw [Nat.dvd_iff_mod_eq_zero.1 hdraws]
    exact h.prescaler
  · have hwaits : ¬ p + 1 ∣ k + 1 := mt hzero.2 hrunning
    have hpos : v.counter.toNat ≠ 0 := fun h0 => hrunning (UInt8.toNat_inj.1 h0)
    have hle : 1 ≤ v.counter := UInt8.le_iff_toNat_le.2 (Nat.pos_of_ne_zero hpos)
    refine ⟨{ v with counter := v.counter - 1 }, source, hok, ⟨h.prescaler, ?_, h.bounded⟩,
      Or.inr ⟨hwaits, rfl, rfl, rfl⟩⟩
    have hless : (v.counter - 1).toNat = v.counter.toNat - 1 := UInt8.toNat_sub_of_le _ _ hle
    have hmore : (k + 1) % (p + 1) = k % (p + 1) + 1 := by
      rw [← Nat.mod_add_mod]
      apply Nat.mod_eq_of_lt
      omega
    show (v.counter - 1).toNat + (k + 1) % (p + 1) = p
    omega

/-- What is done to the envelope alone reaches neither the count nor the level. -/
theorem Counts.withEnvelope (h : v.Counts p k) {envelope : Envelope} (hbounded : envelope.Bounded) :
    (v.withEnvelope envelope).Counts p k ∧ (v.withEnvelope envelope).Repeats v :=
  ⟨⟨h.prescaler, h.counter, hbounded⟩, rfl, rfl⟩

theorem Counts.touch_envelope (h : v.Counts p k) (source : ρ) {x : Touch} (hx : x ≠ .sample) :
    ∃ v', v.touch source x = .ok (none, v', source) ∧ v'.Counts p k ∧ v'.Repeats v := by
  have hbounded := h.bounded
  cases x with
  | sample => exact absurd rfl hx
  | modulate =>
    obtain ⟨envelope, hok, henvelope⟩ := modulateEnvelope_of_bounded hbounded
    refine ⟨v.withEnvelope envelope, ?_, h.withEnvelope henvelope⟩
    simp only [touch, hok, bind, Except.bind]
    rfl
  | stepEnvelope =>
    obtain ⟨factor, stage, pending, hok, hle⟩ := hbounded.step
    refine ⟨v.withEnvelope { v.amplitude.envelope with factor, stage, pending }, ?_,
      h.withEnvelope ⟨hle, hbounded.attack_le, hbounded.sustain_le⟩⟩
    simp only [touch, hok, bind, Except.bind]
    rfl
  | configureEnvelope params =>
    refine ⟨v.withEnvelope (v.amplitude.envelope.withParams params), ?_,
      h.withEnvelope (hbounded.withParams params)⟩
    simp only [touch, perform_eq, bind, Except.bind]
    rfl
  | enableEnvelope enabled =>
    exact ⟨v.withEnvelope { v.amplitude.envelope with enabled }, rfl,
      h.withEnvelope ⟨hbounded.factor_le, hbounded.attack_le, hbounded.sustain_le⟩⟩

theorem toNat_prescaler (note : UInt8) :
    (128 - (note &&& 0x7F) : UInt8).toNat = 128 - note.toNat % 128 := by
  have hmask : (note &&& 0x7F).toNat = note.toNat % 128 := by
    rw [UInt8.toNat_and]
    exact Nat.and_two_pow_sub_one_eq_mod note.toNat 7
  have hle : note &&& 0x7F ≤ 128 := by
    rw [UInt8.le_iff_toNat_le, hmask]
    show note.toNat % 128 ≤ 128
    omega
  rw [UInt8.toNat_sub_of_le _ _ hle, hmask]
  rfl

theorem counts_noteOn (h : v.amplitude.envelope.Bounded) (note velocity : UInt8) :
    ∃ v', v.noteOn note velocity = .ok v' ∧ v'.Counts (128 - note.toNat % 128) 0 ∧
      v'.isHigh = v.isHigh := by
  refine ⟨v.performed (.noteOn note velocity), v.perform_eq (.noteOn note velocity), ?_, rfl⟩
  have hcount := toNat_prescaler note
  exact ⟨hcount, by rw [Nat.zero_mod]; exact hcount, bounded_performed h _⟩

end Counts

/-! ## Runs -/

/-- The samples heard from the sample `k + 1` of a note on, after one with the value `last`.
The log has a bit for each row of `p + 1` samples, and within a row each sample repeats the one
before. -/
structure OnSchedule (source : ρ) (p k : Nat) (last : Int16) (heard : List (Heard (Logged ρ))) :
    Prop where
  log : ∀ i h, heard[i]? = some h → h.source = Logged.after source ((k + i + 1) / (p + 1))
  repeats : ∀ i h, heard[i]? = some h → ¬ p + 1 ∣ k + i + 1 →
    (last :: heard.map Heard.sample)[i]? = some h.sample

theorem OnSchedule.cons {source : ρ} {p k : Nat} {last : Int16} {first : Heard (Logged ρ)}
    {heard : List (Heard (Logged ρ))}
    (hlog : first.source = Logged.after source ((k + 1) / (p + 1)))
    (hrepeats : ¬ p + 1 ∣ k + 1 → first.sample = last)
    (h : OnSchedule source p (k + 1) first.sample heard) :
    OnSchedule source p k last (first :: heard) := by
  constructor
  · intro i x hx
    cases i with
    | zero =>
      simp only [List.getElem?_cons_zero, Option.some.injEq] at hx
      subst hx
      exact hlog
    | succ i =>
      have hlater := h.log i x hx
      rwa [Nat.add_right_comm k 1 i] at hlater
  · intro i x hx hwaits
    cases i with
    | zero =>
      simp only [List.getElem?_cons_zero, Option.some.injEq] at hx
      subst hx
      simp [hrepeats hwaits]
    | succ i =>
      rw [← Nat.add_assoc, Nat.add_right_comm k i 1] at hwaits
      exact h.repeats i x hx hwaits

/-- The last of some bits, or the first choice if there is none. -/
def lastBit (first : Bool) (drawn : List Bool) : Bool := drawn.getLast?.getD first

/-- A run of touches from any sample of a note on: none faults, what is heard is on schedule, and
the last bit drawn chooses the level. -/
theorem Counts.watch (source : ρ) (first : Bool) (touches : List Touch) {p k : Nat} {v : Noise}
    (h : v.Counts p k)
    (hbit : v.isHigh = lastBit first (Logged.after source (k / (p + 1))).drawn) :
    ∃ heard v' r, r = Logged.after source ((k + touches.count .sample) / (p + 1)) ∧
      watch touches v (Logged.after source (k / (p + 1))) = .ok (heard, v', r) ∧
      heard.length = touches.count .sample ∧ OnSchedule source p k v.output heard ∧
      v'.isHigh = lastBit first r.drawn := by
  induction touches generalizing k v with
  | nil =>
    refine ⟨[], v, _, rfl, rfl, rfl, ?_, hbit⟩
    constructor <;> intro i x hx <;> cases hx
  | cons x touches ih =>
    by_cases hsample : x = .sample
    · subst hsample
      obtain ⟨v₁, source₁, hnext, h₁, hcases⟩ := h.next (Logged.after source (k / (p + 1)))
      have hsource : source₁ = Logged.after source ((k + 1) / (p + 1)) := by
        rcases hcases with ⟨hdraws, hdraw⟩ | ⟨hwaits, rfl, -⟩
        · rw [Nat.succ_div_of_dvd hdraws, ← Logged.draw_after, ← hdraw]
        · rw [Nat.succ_div_of_not_dvd hwaits]
      subst hsource
      have hrepeats : ¬ p + 1 ∣ k + 1 → v₁.output = v.output := by
        intro hwaits
        rcases hcases with ⟨hdraws, -⟩ | ⟨-, -, hrepeats⟩
        · exact absurd hdraws hwaits
        · exact hrepeats.output
      have hbit₁ : v₁.isHigh = lastBit first (Logged.after source ((k + 1) / (p + 1))).drawn := by
        rcases hcases with ⟨hdraws, hdraw⟩ | ⟨hwaits, hsame, hrepeats⟩
        · rw [Nat.succ_div_of_dvd hdraws, Logged.after, BitSource.take_succ]
          simp only [lastBit, List.getLast?_concat, Option.getD_some]
          exact congrArg Prod.fst hdraw
        · rw [hrepeats.isHigh, hbit, hsame]
      have htouch : v.touch (Logged.after source (k / (p + 1))) .sample =
          .ok (some v₁.output, v₁, Logged.after source ((k + 1) / (p + 1))) := by
        simp only [touch, hnext, bind, Except.bind]
        rfl
      obtain ⟨heard, v', r, hr, hrun, hlength, hschedule, hlast⟩ := ih h₁ hbit₁
      refine ⟨⟨v₁.output, Logged.after source ((k + 1) / (p + 1))⟩ :: heard, v', r, ?_,
        watch_cons htouch hrun, ?_, OnSchedule.cons rfl hrepeats hschedule, hlast⟩
      · rw [hr, List.count_cons_self, Nat.add_assoc k 1, Nat.add_comm 1 (touches.count .sample)]
      · rw [List.length_cons, hlength, List.count_cons_self]
    · -- only a sample is heard, counted and logged
      obtain ⟨v₁, htouch, h₁, hrepeats⟩ :=
        h.touch_envelope (Logged.after source (k / (p + 1))) hsample
      obtain ⟨heard, v', r, hr, hrun, hlength, hschedule, hlast⟩ :=
        ih h₁ (hrepeats.isHigh.trans hbit)
      rw [List.count_cons_of_ne hsample]
      rw [hrepeats.output] at hschedule
      exact ⟨heard, v', r, hr, watch_cons htouch hrun, hlength, hschedule, hlast⟩

/-- The bits drawn up to a tick and with it. Ticks are counted from one. -/
def drawnBy (heard : List (Heard (Logged ρ))) : Nat → List Bool
  | 0 => []
  | i + 1 => ((heard[i]?).map fun h => h.source.drawn).getD []

/-- The tick gives another sample than the tick before it. The first tick has none before it. -/
def ChangesOn (heard : List (Heard (Logged ρ))) (tick : Nat) : Prop :=
  ∃ i a b, tick = i + 2 ∧ heard[i]? = some a ∧ heard[i + 1]? = some b ∧ a.sample ≠ b.sample

theorem OnSchedule.drawnBy_eq {source : ρ} {p : Nat} {last : Int16}
    {heard : List (Heard (Logged ρ))} (h : OnSchedule source p 0 last heard) {tick : Nat}
    (hle : tick ≤ heard.length) :
    drawnBy heard tick = (BitSource.take (tick / (p + 1)) source).1 := by
  cases tick with
  | zero =>
    rw [Nat.zero_div]
    rfl
  | succ i =>
    have hget : heard[i]? = some heard[i] := List.getElem?_eq_getElem hle
    have hlog := h.log i _ hget
    rw [Nat.zero_add] at hlog
    simp only [drawnBy, hget, Option.map_some, Option.getD_some, hlog]
    rfl

/-- Within a row of `p + 1` samples there is no change. -/
theorem OnSchedule.dvd_of_changesOn {source : ρ} {p : Nat} {last : Int16}
    {heard : List (Heard (Logged ρ))} (h : OnSchedule source p 0 last heard) {tick : Nat}
    (hchange : ChangesOn heard tick) : p + 1 ∣ tick := by
  obtain ⟨i, a, b, rfl, ha, hb, hne⟩ := hchange
  by_contra hwaits
  rw [show i + 2 = 0 + (i + 1) + 1 by omega] at hwaits
  have hsame := h.repeats (i + 1) b hb hwaits
  simp only [List.getElem?_cons_succ, List.getElem?_map, ha, Option.map_some,
    Option.some.injEq] at hsame
  exact hne hsame

/-- A note of the noise with a prescaler of `p`, from any state of the voice, and any run of
samples, modulation ticks, envelope steps and settings of the envelope after it. No touch faults.
After each tick the source has given its first bits in their order, one for each `p + 1` ticks, so
that the bit number `k + 1` is drawn on the tick `(k + 1) * (p + 1)` and on no other. The last bit
chooses the level. After the first tick the samples change only on ticks that draw, and so at
least `p + 1` ticks apart. -/
theorem draws_keep_schedule {v : Noise} (hv : v.amplitude.envelope.Built) (note velocity : UInt8)
    (source : ρ) (touches : List Touch) :
    let p := 128 - note.toNat % 128
    let n := touches.count .sample
    ∃ v₀ heard v' r, v.noteOn note velocity = .ok v₀ ∧
      watch touches v₀ (Logged.start source) = .ok (heard, v', r) ∧
      watch touches v₀ source = .ok (heard.map Heard.forget, v', r.source) ∧
      heard.length = n ∧
      r.drawn.length = n / (p + 1) ∧ (r.drawn, r.source) = BitSource.take (n / (p + 1)) source ∧
      v'.isHigh = lastBit v.isHigh r.drawn ∧
      (∀ tick ≤ n, drawnBy heard tick = (BitSource.take (tick / (p + 1)) source).1) ∧
      (∀ k, (k + 1) * (p + 1) ≤ n → ∃ bit,
        drawnBy heard ((k + 1) * (p + 1)) = drawnBy heard ((k + 1) * (p + 1) - 1) ++ [bit] ∧
        (drawnBy heard ((k + 1) * (p + 1) - 1)).length = k) ∧
      (∀ tick, ChangesOn heard tick → p + 1 ∣ tick) ∧
      ∀ first second, ChangesOn heard first → ChangesOn heard second → first < second →
        first + (p + 1) ≤ second := by
  intro p n
  obtain ⟨v₀, hon, hcounts, hhigh⟩ := counts_noteOn hv.coherent.bounded note velocity
  have hbit : v₀.isHigh = lastBit v.isHigh (Logged.after source (0 / (p + 1))).drawn := by
    rw [hhigh, Nat.zero_div]
    rfl
  obtain ⟨heard, v', r, hr, hrun, hlength, hschedule, hlast⟩ :=
    hcounts.watch source v.isHigh touches hbit
  rw [Nat.zero_add] at hr
  rw [Nat.zero_div] at hrun
  subst hr
  have hdrawn {tick : Nat} (hle : tick ≤ n) :
      drawnBy heard tick = (BitSource.take (tick / (p + 1)) source).1 :=
    hschedule.drawnBy_eq (hle.trans_eq hlength.symm)
  have hchange {tick : Nat} (h : ChangesOn heard tick) : p + 1 ∣ tick :=
    hschedule.dvd_of_changesOn h
  refine ⟨v₀, heard, v', _, hon, hrun, watch_forget touches hrun, hlength,
    BitSource.length_take _ source, rfl, hlast, fun tick hle => hdrawn hle, ?_,
    fun tick h => hchange h, ?_⟩
  · intro k hle
    -- one tick earlier the row is not complete
    have hbefore : ((k + 1) * (p + 1) - 1) / (p + 1) = k := by
      have hrow : (k + 1) * (p + 1) - 1 = k * (p + 1) + p := by
        rw [Nat.succ_mul]
        rfl
      rw [hrow, Nat.mul_comm, Nat.mul_add_div (Nat.succ_pos p),
        Nat.div_eq_of_lt (Nat.lt_succ_self p), Nat.add_zero]
    rw [hdrawn hle, hdrawn (Nat.le_trans (Nat.sub_le _ _) hle), hbefore,
      Nat.mul_div_cancel _ (Nat.succ_pos p), BitSource.take_succ]
    exact ⟨_, rfl, BitSource.length_take k source⟩
  · intro first second hfirst hsecond hlt
    have hapart : p + 1 ∣ second - first := Nat.dvd_sub (hchange hsecond) (hchange hfirst)
    have hle := Nat.le_of_dvd (Nat.sub_pos_of_lt hlt) hapart
    omega

/-- The noise at its second highest note, with an envelope. The factor moves in the middle of
both rows, and in the second one the envelope is switched off before the draw that takes it. -/
theorem draws_keep_schedule_under_envelope :
    let e : Envelope := { Envelope.fresh.withParams ⟨0, 0, 64, 0⟩ with enabled := true }
    let touches : List Touch :=
      [.sample, .modulate, .sample, .sample, .stepEnvelope, .sample, .enableEnvelope false,
        .sample, .modulate, .configureEnvelope ⟨9, 9, 9, 9⟩, .sample, .sample]
    (fresh.withEnvelope e).amplitude.envelope.Built ∧
      ∃ v₀ heard v' r, (fresh.withEnvelope e).noteOn 126 100 = .ok v₀ ∧
        watch touches v₀ (Logged.start (BitCycle.ofBits [true, false])) = .ok (heard, v', r) ∧
        heard.map Heard.sample = [0, 0, 3200, 3200, 3200, -1613, -1613] ∧
        r.drawn = [true, false] ∧ drawnBy heard 5 = [true] ∧
        ∀ tick, ChangesOn heard tick → 3 ∣ tick := by
  intro e touches
  have hbuilt : (fresh.withEnvelope e).amplitude.envelope.Built :=
    .setFlags true false (.configure ⟨0, 0, 64, 0⟩ .fresh (Envelope.configure_eq _ _))
  obtain ⟨v₀, heard, v', r, hon, hrun, hplain, -, -, hdrawn, -, hby, -, hchange, -⟩ :=
    draws_keep_schedule hbuilt 126 100 (BitCycle.ofBits [true, false]) touches
  have hsamples : ((fresh.withEnvelope e).noteOn 126 100 >>= fun v =>
      watch touches v (BitCycle.ofBits [true, false])).toOption.map
        (fun run => run.1.map Heard.sample) = some [0, 0, 3200, 3200, 3200, -1613, -1613] := by
    decide +kernel
  rw [hon] at hsamples
  simp only [bind, Except.bind, hplain, Except.toOption, Option.map_some, Option.some.injEq,
    List.map_map] at hsamples
  refine ⟨hbuilt, v₀, heard, v', r, hon, hrun, hsamples, ?_, ?_, hchange⟩
  · exact (congrArg Prod.fst hdrawn).trans (by decide)
  · exact hby 5 (by decide)

end Noise

end Chiptune
