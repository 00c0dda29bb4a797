import Chiptune.Proofs.Coherence
import Mathlib.Data.Nat.ModEq

/-!
# The clock of a phase

The square and the triangle keep time in the same way: a sample of either is a tick of its
phase (`Phase.Tick`), up to the edge in the first part of the cycle and up to the period in the
second one.

Only the second part looks at the period, and a new duty may move the edge in either part, so
the time can run past the period. `Phase.Clock` says how far, and that no time gets lost on the
way. A tick keeps it (`Clock.tick`), and so does whatever else can be done to a voice, but for
another note and a step of the vibrato (`Keeps.touch`); hence it holds throughout every run
(`phase_keeps_time`).
-/

set_option autoImplicit false

namespace Chiptune

/-! ## Samples in a row -/

section Samples

variable {σ : Type}

/-- The next `n` samples of a voice, and the voice after them. -/
def samples (next : σ → Except Fault (Int16 × σ)) : Nat → σ → Except Fault (List Int16 × σ)
  | 0, s => .ok ([], s)
  | n + 1, s => do
      let (xs, s) ← samples next n s
      let (x, s) ← next s
      return (xs ++ [x], s)

/-- What holds at first, and makes the next sample succeed and holds after it, makes all samples
succeed and holds after any number of them. -/
theorem samples_keep {next : σ → Except Fault (Int16 × σ)} {P : Nat → List Int16 → σ → Prop}
    {s : σ} (hstart : P 0 [] s)
    (hnext : ∀ n xs u, P n xs u → ∃ x u', next u = .ok (x, u') ∧ P (n + 1) (xs ++ [x]) u')
    (n : Nat) : ∃ xs s', samples next n s = .ok (xs, s') ∧ P n xs s' := by
  induction n with
  | zero => exact ⟨[], s, rfl, hstart⟩
  | succ n ih =>
    obtain ⟨xs, u, hsamples, hu⟩ := ih
    obtain ⟨x, u', hok, hu'⟩ := hnext n xs u hu
    refine ⟨xs ++ [x], u', ?_, hu'⟩
    simp only [samples, hsamples, bind, Except.bind, hok]
    rfl

end Samples

/-! ## Clocks -/

namespace Phase

/-- The phase of a voice `n` samples after its note started, with `wraps` ends of cycles among
them. -/
structure Clock (period : Fixed) (n wraps : Nat) (p : Phase) (first : Bool) : Prop where
  period_eq : p.period = period
  within : p.Within period.units first
  elapsed : n * 65536 ≡ p.time.units [MOD period.units]
  exact_of_long : 131072 ≤ period.units → n * 65536 = wraps * period.units + p.time.units

section Clock

variable {period : Fixed} {n wraps : Nat} {p p' : Phase} {first first' : Bool}

theorem clock_start (duty : UInt8) (hpos : 0 < period.units) (first : Bool) :
    Clock period 0 0 ⟨duty, Fixed.zero, period, edgeAt period duty⟩ first where
  period_eq := rfl
  within := within_start duty hpos (Nat.le_refl _)
  elapsed := by
    rw [Nat.zero_mul]
    exact Nat.ModEq.rfl
  exact_of_long := fun _ => by simp

/-- At most the edge is placed anew, by a duty. -/
def Edged (p p' : Phase) : Prop :=
  p' = p ∨ ∃ duty, p' = { p with duty, edge := edgeAt p.period duty }

theorem Clock.edged (h : Clock period n wraps p first) (hedged : p.Edged p') :
    Clock period n wraps p' first := by
  rcases hedged with rfl | ⟨duty, rfl⟩
  · exact h
  · exact ⟨h.period_eq, h.within.withDuty duty, h.elapsed, h.exact_of_long⟩

theorem Clock.not_overflows (h : Clock period n wraps p first)
    (hle : period.units ≤ 4294967296 - 131072) : ¬ p.Overflows := by
  exact h.within.not_overflows (by omega)

/-- One more sample; the change from the second part to the first one is the end of a cycle. -/
theorem Clock.tick (h : Clock period n wraps p first) (hpos : 0 < period.units)
    (htick : p.Tick first p' first') :
    Clock period (n + 1) (wraps + (!first && first').toNat) p' first' := by
  have hnext : (n + 1) * 65536 = n * 65536 + 65536 := Nat.succ_mul n 65536
  have helapsed := h.elapsed.add_right 65536
  rw [← hnext] at helapsed
  cases htick with
  | @first time htime =>
    refine ⟨h.period_eq, ?_, ?_, ?_⟩
    · exact h.within.advance_first htime fun hstay => of_decide_eq_true hstay
    · rw [htime]
      exact helapsed
    · intro hlong
      show (n + 1) * 65536 = wraps * period.units + time.units
      rw [hnext, h.exact_of_long hlong, htime, Nat.add_assoc]
  | @second time htime hlt =>
    refine ⟨h.period_eq, h.within.advance_second hlt, ?_, ?_⟩
    · rw [htime]
      exact helapsed
    · intro hlong
      show (n + 1) * 65536 = wraps * period.units + time.units
      rw [hnext, h.exact_of_long hlong, htime, Nat.add_assoc]
  | @wrap rest hend hrest =>
    have hperiod := h.period_eq
    have hne : p.period ≠ Fixed.zero := by
      intro hzero
      rw [← hperiod, hzero, Fixed.units_zero] at hpos
      omega
    refine ⟨hperiod, h.within.wrapped hne hrest, ?_, ?_⟩
    · rw [hrest, hperiod]
      exact helapsed.trans (Nat.mod_modEq _ _).symm
    · -- the time is less than two samples past the period, so the period is in it once
      intro hlong
      have hlt := h.within.time_lt
      rw [hperiod] at hend hrest
      rw [Nat.mod_eq_sub_mod hend, Nat.mod_eq_of_lt (by omega)] at hrest
      have hsum : p.time.units + 65536 = period.units + rest.units := by omega
      show (n + 1) * 65536 = (wraps + 1) * period.units + rest.units
      rw [hnext, h.exact_of_long hlong, Nat.add_assoc, hsum, Nat.succ_mul, Nat.add_assoc]

end Clock

end Phase

/-! ## Commands while a note is held -/

/-- Without a new note a command for a square places at most the edge anew. A vibrato that is
switched off puts the period of the note back, which is already there. -/
theorem Square.edged_performed {q : Square} {t : Tuning} {action : Action}
    (haction : ∀ note velocity, action ≠ .noteOn note velocity)
    (hperiod : q.phase.period = t.period q.note) :
    (q.performed t action).isHigh = q.isHigh ∧ (q.performed t action).note = q.note ∧
      q.phase.Edged (q.performed t action).phase := by
  cases action with
  | noteOn note velocity => exact absurd rfl (haction note velocity)
  | setDuty duty => exact ⟨rfl, rfl, Or.inr ⟨duty, rfl⟩⟩
  | vibratoOff =>
    refine ⟨rfl, rfl, Or.inr ⟨q.phase.duty, ?_⟩⟩
    simp only [performed, ← hperiod]
  | noteOff => exact ⟨rfl, rfl, Or.inl rfl⟩
  | configureVibrato params => exact ⟨rfl, rfl, Or.inl rfl⟩
  | vibratoOn => exact ⟨rfl, rfl, Or.inl rfl⟩
  | configureEnvelope params => exact ⟨rfl, rfl, Or.inl rfl⟩
  | envelopeOn => exact ⟨rfl, rfl, Or.inl rfl⟩
  | envelopeOff => exact ⟨rfl, rfl, Or.inl rfl⟩

theorem Triangle.edged_performed {r : Triangle} {t : Tuning} {action : Action}
    (haction : ∀ note velocity, action ≠ .noteOn note velocity) :
    (r.performed t action).rising = r.rising ∧ r.phase.Edged (r.performed t action).phase := by
  rcases r.performed_cases t action with ⟨note, velocity, rfl⟩ | ⟨duty, rfl⟩ | rfl | ⟨flag, hflag⟩
  · exact absurd rfl (haction note velocity)
  · exact ⟨rfl, Or.inr ⟨duty, rfl⟩⟩
  · exact ⟨rfl, Or.inl rfl⟩
  · rw [hflag]
    exact ⟨rfl, Or.inl rfl⟩

/-! ## Voices with a pitch -/

/-- A voice with a pitch. -/
inductive Pitched where
  | square (state : Square)
  | triangle (state : Triangle)

/-- What is done to a voice. -/
inductive Touch where
  | sample
  | perform (action : Action)
  | modulateVibrato
  | modulateEnvelope
  deriving DecidableEq

/-- The touch neither starts a note nor steps the vibrato. -/
def Touch.keepsPeriod : Touch → Bool
  | .perform (.noteOn _ _) | .modulateVibrato => false
  | _ => true

namespace Pitched

def phase : Pitched → Phase
  | square q => q.phase
  | triangle r => r.phase

/-- The voice is in the first part of its cycle. -/
def first : Pitched → Bool
  | square q => !q.isHigh
  | triangle r => r.rising

/-- The voice after a touch. The triangle has nothing to modulate. -/
def touch (t : Tuning) : Pitched → Touch → Except Fault Pitched
  | square q, .sample => return square (← q.next).2
  | square q, .perform action => return square (← q.perform t action)
  | square q, .modulateVibrato => return square (← q.modulateVibrato)
  | square q, .modulateEnvelope => return square (← q.modulateEnvelope)
  | triangle r, .sample => return triangle (← r.next).2
  | triangle r, .perform action => return triangle (← r.perform t action)
  | triangle r, .modulateVibrato => .ok (triangle r)
  | triangle r, .modulateEnvelope => .ok (triangle r)

/-- The voice after a list of touches. -/
def run (t : Tuning) : List Touch → Pitched → Except Fault Pitched
  | [], v => .ok v
  | x :: touches, v => do run t touches (← v.touch t x)

/-- How often the second part of a cycle is followed by the first one of another. -/
def wraps (t : Tuning) : List Touch → Pitched → Nat
  | [], _ => 0
  | x :: touches, v =>
      match v.touch t x with
      | .error _ => 0
      | .ok v' => (!v.first && v'.first).toNat + wraps t touches v'

/-- The voices that can come about, under any tunings. -/
inductive Reached : Pitched → Prop
  | square (duty : UInt8) : Reached (.square (Square.fresh duty))
  | triangle (duty : UInt8) : Reached (.triangle (Triangle.fresh duty))
  | touch {v v' : Pitched} {t : Tuning} {x : Touch} :
      Reached v → v.touch t x = .ok v' → Reached v'

/-- The modulators are in range. -/
def Sound : Pitched → Prop
  | square q => q.Sound
  | triangle _ => True

/-- A square has the note. The triangle does not come back to its note. -/
def HasNote (note : UInt8) : Pitched → Prop
  | square q => q.note = note
  | triangle _ => True

section Touch

variable {v v' : Pitched} {t : Tuning} {x : Touch}

theorem Sound.touch (h : v.Sound) (hok : v.touch t x = .ok v') : v'.Sound := by
  cases v with
  | triangle r =>
    cases x with
    | sample =>
      obtain ⟨_, -, hv⟩ := bind_eq_ok.1 hok
      cases hv
      trivial
    | perform action =>
      obtain ⟨_, -, hv⟩ := bind_eq_ok.1 hok
      cases hv
      trivial
    | modulateVibrato =>
      cases hok
      trivial
    | modulateEnvelope =>
      cases hok
      trivial
  | square q =>
    have hq : q.Sound := h
    cases x with
    | sample =>
      obtain ⟨⟨y, q'⟩, hnext, hv⟩ := bind_eq_ok.1 hok
      cases hv
      rcases hq.next with ⟨-, herror⟩ | ⟨-, y', q₁, hok₁, hsound⟩
      · rw [hnext] at herror
        cases herror
      · rw [hnext] at hok₁
        cases hok₁
        exact hsound
    | perform action =>
      obtain ⟨q', hperform, hv⟩ := bind_eq_ok.1 hok
      cases hv
      rw [Square.perform_eq] at hperform
      cases hperform
      exact hq.performed t action
    | modulateVibrato =>
      obtain ⟨q', hmodulate, hv⟩ := bind_eq_ok.1 hok
      cases hv
      rcases hq.modulateVibrato with ⟨-, herror⟩ | ⟨-, q₁, hok₁, hsound⟩
      · rw [hmodulate] at herror
        cases herror
      · rw [hmodulate] at hok₁
        cases hok₁
        exact hsound
    | modulateEnvelope =>
      obtain ⟨q', hmodulate, hv⟩ := bind_eq_ok.1 hok
      cases hv
      obtain ⟨envelope, hok₁, hbounded⟩ := Square.modulateEnvelope_of_bounded hq.bounded
      rw [hmodulate] at hok₁
      cases hok₁
      exact ⟨hq.hasPlace, hbounded⟩

theorem Reached.sound (h : v.Reached) : v.Sound := by
  induction h with
  | square duty => exact Square.sound_fresh duty
  | triangle duty => trivial
  | touch _ hok ih => exact ih.touch hok

/-- A sample of either voice is a tick of its phase. -/
theorem touch_sample {note : UInt8} (hpos : v.phase.period ≠ Fixed.zero)
    (hfit : ¬ v.phase.Overflows) (hnote : v.HasNote note) :
    ∃ v', v.touch t .sample = .ok v' ∧ v.phase.Tick v.first v'.phase v'.first ∧
      v'.HasNote note := by
  cases v with
  | square q =>
    obtain ⟨q', hok, htick, -⟩ := Square.next_tick hpos hfit
    obtain ⟨hsame, -⟩ := Square.next_frame hok
    exact ⟨square q', by simp only [touch, hok]; rfl, htick, hsame.trans hnote⟩
  | triangle r =>
    obtain ⟨r', hok, htick, -⟩ := Triangle.next_tick hpos hfit
    exact ⟨triangle r', by simp only [touch, hok]; rfl, htick, trivial⟩

/-- Between two samples at most the edge of a phase changes. -/
theorem touch_of_ne_sample {note : UInt8} (hsound : v.Sound) (hnote : v.HasNote note)
    (hperiod : v.phase.period = t.period note) (hx : x.keepsPeriod = true) (hne : x ≠ .sample) :
    ∃ v', v.touch t x = .ok v' ∧ v'.first = v.first ∧ v.phase.Edged v'.phase ∧
      v'.HasNote note := by
  cases x with
  | sample => exact absurd rfl hne
  | modulateVibrato => cases hx
  | perform action =>
    have haction (note velocity : UInt8) : action ≠ .noteOn note velocity := by
      rintro rfl
      cases hx
    cases v with
    | square q =>
      obtain rfl : q.note = note := hnote
      obtain ⟨hhigh, hsame, hedged⟩ := Square.edged_performed haction hperiod
      refine ⟨square (q.performed t action), ?_, congrArg not hhigh, hedged, hsame⟩
      simp only [touch, Square.perform_eq]
      rfl
    | triangle r =>
      obtain ⟨hrising, hedged⟩ := Triangle.edged_performed (t := t) (r := r) haction
      refine ⟨triangle (r.performed t action), ?_, hrising, hedged, trivial⟩
      simp only [touch, Triangle.perform_eq]
      rfl
  | modulateEnvelope =>
    cases v with
    | square q =>
      have hbounded := Square.Sound.bounded hsound
      obtain ⟨envelope, hok, -⟩ := Square.modulateEnvelope_of_bounded hbounded
      refine ⟨square { q with amplitude := { q.amplitude with envelope } }, ?_, rfl, Or.inl rfl,
        hnote⟩
      simp only [touch, hok]
      rfl
    | triangle r => exact ⟨triangle r, rfl, rfl, Or.inl rfl, trivial⟩

end Touch

/-- A voice at some place of the clock of a note. -/
structure Keeps (t : Tuning) (note : UInt8) (n wraps : Nat) (v : Pitched) : Prop where
  clock : v.phase.Clock (t.period note) n wraps v.first
  hasNote : v.HasNote note
  sound : v.Sound

section Run

variable {t : Tuning} {note : UInt8} {n w : Nat} {v : Pitched}

theorem Sound.noteOn (h : v.Sound) (t : Tuning) (note velocity : UInt8)
    (hpos : 0 < (t.period note).units) :
    ∃ v', v.touch t (.perform (.noteOn note velocity)) = .ok v' ∧ v'.Keeps t note 0 0 := by
  cases v with
  | square q =>
    have hok : (square q).touch t (.perform (.noteOn note velocity)) =
        .ok (square (q.performed t (.noteOn note velocity))) := by
      simp only [Pitched.touch, Square.perform_eq]
      rfl
    exact ⟨_, hok, Phase.clock_start q.phase.duty hpos true, rfl, h.touch hok⟩
  | triangle r =>
    have hok : (triangle r).touch t (.perform (.noteOn note velocity)) =
        .ok (triangle (r.performed t (.noteOn note velocity))) := by
      simp only [Pitched.touch, Triangle.perform_eq]
      rfl
    exact ⟨_, hok, Phase.clock_start r.phase.duty hpos true, trivial, trivial⟩

/-- A touch succeeds, and it moves the clock on if it is a sample. -/
theorem Keeps.touch (h : v.Keeps t note n w) (hpos : 0 < (t.period note).units)
    (hle : (t.period note).units ≤ 4294967296 - 131072) {x : Touch}
    (hx : x.keepsPeriod = true) :
    ∃ v', v.touch t x = .ok v' ∧
      v'.Keeps t note (n + [x].count .sample) (w + (!v.first && v'.first).toNat) := by
  have hperiod := h.clock.period_eq
  by_cases hsample : x = .sample
  · subst hsample
    have hne : v.phase.period ≠ Fixed.zero := by
      rw [hperiod]
      intro hzero
      rw [hzero] at hpos
      exact absurd hpos (Nat.lt_irrefl 0)
    obtain ⟨v', hok, htick, hnote⟩ := touch_sample hne (h.clock.not_overflows hle) h.hasNote
    exact ⟨v', hok, h.clock.tick hpos htick, hnote, h.sound.touch hok⟩
  · obtain ⟨v', hok, hfirst, hedged, hnote⟩ :=
      touch_of_ne_sample h.sound h.hasNote hperiod hx hsample
    refine ⟨v', hok, ?_, hnote, h.sound.touch hok⟩
    have hcount : [x].count .sample = 0 := by simp [hsample]
    have hsame : (!v.first && v'.first).toNat = 0 := by simp [hfirst]
    rw [hcount, hsame, hfirst]
    exact h.clock.edged hedged

theorem Keeps.run (h : v.Keeps t note n w) (hpos : 0 < (t.period note).units)
    (hle : (t.period note).units ≤ 4294967296 - 131072) {touches : List Touch}
    (hkeeps : ∀ x ∈ touches, x.keepsPeriod = true) :
    ∃ v', v.run t touches = .ok v' ∧
      v'.Keeps t note (n + touches.count .sample) (w + wraps t touches v) := by
  induction touches generalizing v n w with
  | nil => exact ⟨v, rfl, h⟩
  | cons x touches ih =>
    obtain ⟨v₁, hok, h₁⟩ := h.touch hpos hle (hkeeps x List.mem_cons_self)
    obtain ⟨v', hrun, h'⟩ := ih h₁ fun y hy => hkeeps y (List.mem_cons_of_mem x hy)
    refine ⟨v', ?_, ?_⟩
    · simp only [Pitched.run, hok]
      exact hrun
    · have hcount : (x :: touches).count .sample =
          [x].count .sample + touches.count .sample := by
        rw [← List.count_append]
        rfl
      simp only [wraps, hok, hcount, ← Nat.add_assoc]
      exact h'

end Run

/-- A square or a triangle, whatever was done to it, after the start of a note with a period of
at most 65534 samples, below one sample too, and with any duty. Over every run of samples, ticks
of the envelope and commands other than another note no operation faults. After each of them the
time is less than one sample past the period, has room for the next sample, and is the time of
all samples together up to whole periods. From a period of two samples on, each end of a cycle
takes off exactly one period. -/
theorem phase_keeps_time {v : Pitched} (hv : v.Reached) (t : Tuning) (note velocity : UInt8)
    (hpos : 0 < (t.period note).units) (hle : (t.period note).units ≤ 2 ^ 32 - 131072) :
    ∃ v₀, v.touch t (.perform (.noteOn note velocity)) = .ok v₀ ∧
      ∀ touches : List Touch, (∀ x ∈ touches, x.keepsPeriod = true) →
        ∃ v', v₀.run t touches = .ok v' ∧
          let period := (t.period note).units
          let n := touches.count .sample
          let time := v'.phase.time.units
          v'.phase.period = t.period note ∧ time < period + 65536 ∧ time + 65536 < 2 ^ 32 ∧
            n * 65536 ≡ time [MOD period] ∧
            (131072 ≤ period → n * 65536 = wraps t touches v₀ * period + time) := by
  obtain ⟨v₀, hon, hstart⟩ := hv.sound.noteOn t note velocity hpos
  refine ⟨v₀, hon, fun touches htouches => ?_⟩
  obtain ⟨v', hrun, hkeeps⟩ := hstart.run hpos hle htouches
  rw [Nat.zero_add, Nat.zero_add] at hkeeps
  have hclock := hkeeps.clock
  have hlt := hclock.within.time_lt
  exact ⟨v', hrun, hclock.period_eq, hlt, by omega, hclock.elapsed, hclock.exact_of_long⟩

/-- A square of about three samples a cycle, with an envelope that is switched on in its course.
In the second cycle the edge is moved to the end, so the time runs past the period and the cycle
ends a sample late. -/
theorem phase_keeps_time_under_moving_edge :
    let t : Tuning := ⟨48000, Vector.replicate 128 ⟨200000⟩⟩
    let touches : List Touch :=
      [.sample, .perform (.configureEnvelope ⟨3, 3, 64, 3⟩), .perform .envelopeOn, .sample,
        .perform (.setDuty 0), .sample, .modulateEnvelope, .sample, .perform (.setDuty 255),
        .perform .noteOff, .sample, .modulateEnvelope, .sample, .perform .vibratoOff, .sample,
        .perform (.setDuty 1), .sample]
    (square (Square.fresh 128)).Reached ∧ 0 < (t.period 69).units ∧
      (t.period 69).units ≤ 2 ^ 32 - 131072 ∧ (∀ x ∈ touches, x.keepsPeriod = true) ∧
      ∃ v₀, (square (Square.fresh 128)).touch t (.perform (.noteOn 69 100)) = .ok v₀ ∧
        wraps t touches v₀ = 2 ∧
        ∃ v', v₀.run t touches = .ok v' ∧ 8 * 65536 = 2 * 200000 + v'.phase.time.units := by
  intro t touches
  have hreached : (square (Square.fresh 128)).Reached := .square 128
  have hperiod : t.period 69 = ⟨200000⟩ := Tuning.period_uniform _ _ _
  have hpos : 0 < (t.period 69).units := by rw [hperiod]; decide
  have hle : (t.period 69).units ≤ 2 ^ 32 - 131072 := by rw [hperiod]; decide
  have htouches : ∀ x ∈ touches, x.keepsPeriod = true := by decide
  obtain ⟨v₀, hon, hruns⟩ := phase_keeps_time hreached t 69 100 hpos hle
  obtain ⟨v', hrun, -, -, -, -, hexact⟩ := hruns touches htouches
  have hwraps : wraps t touches v₀ = 2 := by
    have heval : ((square (Square.fresh 128)).touch t (.perform (.noteOn 69 100))).toOption.map
        (wraps t touches) = some 2 := by
      decide +kernel
    rw [hon] at heval
    exact Option.some.inj heval
  rw [hwraps, hperiod] at hexact
  exact ⟨hreached, hpos, hle, htouches, v₀, hon, hwraps, v', hrun, hexact (by decide)⟩

end Pitched

end Chiptune
