import Chiptune.Proofs.Commands

/-!
# One sample and one modulation tick

Each lemma says everything that one tick of a voice or a modulator can do, the
fault included. A sample of a voice with a pitch faults only when its phase does
not fit the word (`Phase.Overflows`); a modulation tick of a square only when a
rising vibrato lengthens the period beyond the word (`Square.PeriodOverflows`).
The noise and a bounded envelope never fault.

The square and the triangle keep time in the same way. The phase has a first part up to the
edge and a second part behind it. Each sample adds one to the time; the first part ends when
the time has reached the edge, the second when it has reached the period, and then the whole
periods are taken off. `Phase.Tick` is this step, and one sample of either voice makes it
(`Square.next_tick`, `Triangle.next_tick`). The end of the cycle comes nearer with each
(`Tick.wait_lt`).
-/

set_option autoImplicit false

namespace Chiptune

/-! ## Samples -/

/-- The next sample of a voice at this phase does not fit the word. -/
def Phase.Overflows (p : Phase) : Prop :=
  p.period ≠ Fixed.zero ∧ p.time.AddOverflows Fixed.one

instance (p : Phase) : Decidable p.Overflows := inferInstanceAs (Decidable (_ ∧ _))

theorem Phase.not_overflows_of_later {p : Phase} {time : Fixed}
    (h : time.units = p.time.units + 65536) : ¬ p.Overflows := by
  rintro ⟨-, hover⟩
  have hlt := time.units_lt
  unfold Fixed.AddOverflows at hover
  rw [Fixed.units_one] at hover
  omega

theorem Phase.advance_of_overflows {p : Phase} (h : p.time.AddOverflows Fixed.one) :
    p.advance = .error .addOverflow := by
  unfold advance
  rw [Fixed.add_of_overflows h]
  rfl

theorem Phase.advance_of_not_overflows {p : Phase} (h : ¬ p.time.AddOverflows Fixed.one) :
    ∃ time, p.advance = .ok { p with time } ∧ time.units = p.time.units + 65536 := by
  obtain ⟨time, hadd, hunits⟩ := Fixed.add_of_not_overflows h
  refine ⟨time, ?_, hunits⟩
  unfold advance
  rw [hadd]
  rfl

theorem Phase.wrap_of_ne_zero {p : Phase} (h : p.period ≠ Fixed.zero) :
    ∃ time, p.wrap = .ok { p with time } ∧ time.units = p.time.units % p.period.units := by
  obtain ⟨time, hrem, hunits⟩ := Fixed.rem_of_ne_zero p.time h
  refine ⟨time, ?_, hunits⟩
  unfold wrap
  rw [hrem]
  rfl

namespace Square

/-- The square with another phase time. -/
def atTime (s : Square) (time : Fixed) : Square := { s with phase := { s.phase with time } }

/-- What one sample of a square does. -/
theorem next_cases (s : Square) :
    (s.phase.Overflows ∧ s.next = .error .addOverflow) ∨
    (s.phase.period = Fixed.zero ∧ s.next = .ok (s.amplitude.low, s)) ∨
    (s.phase.period ≠ Fixed.zero ∧ ∃ time, time.units = s.phase.time.units + 65536 ∧
      ((s.isHigh = false ∧ s.next = .ok (s.amplitude.low,
          { s.atTime time with isHigh := decide (s.phase.edge ≤ time) })) ∨
        (s.isHigh = true ∧ time < s.phase.period ∧
          s.next = .ok (s.amplitude.high, s.atTime time)) ∨
        (s.isHigh = true ∧ ¬ time < s.phase.period ∧ ∃ rest,
          rest.units = time.units % s.phase.period.units ∧
          s.next = .ok (s.amplitude.high,
            { s.atTime rest with isHigh := false, amplitude := s.amplitude.refresh })))) := by
  by_cases hzero : s.phase.period = Fixed.zero
  · refine Or.inr (Or.inl ⟨hzero, ?_⟩)
    unfold next
    rw [if_pos hzero]
    rfl
  · by_cases hover : s.phase.time.AddOverflows Fixed.one
    · refine Or.inl ⟨⟨hzero, hover⟩, ?_⟩
      unfold next
      rw [if_neg hzero, Phase.advance_of_overflows hover]
      rfl
    · obtain ⟨time, hadvance, hunits⟩ := Phase.advance_of_not_overflows hover
      refine Or.inr (Or.inr ⟨hzero, time, hunits, ?_⟩)
      unfold next
      rw [if_neg hzero, hadvance]
      simp only [bind, Except.bind]
      -- a square that is low waits for the edge, one that is high for the period
      by_cases hhigh : s.isHigh = true
      · have hnot : ¬ (!s.isHigh) = true := by rw [hhigh]; decide
        refine Or.inr ?_
        by_cases hlt : time < s.phase.period
        · refine Or.inl ⟨hhigh, hlt, ?_⟩
          rw [if_neg hnot, if_pos hlt]
          rfl
        · obtain ⟨rest, hwrap, hrest⟩ :=
            Phase.wrap_of_ne_zero (p := { s.phase with time }) hzero
          refine Or.inr ⟨hhigh, hlt, rest, hrest, ?_⟩
          rw [if_neg hnot, if_neg hlt, hwrap]
          rfl
      · have hlow : s.isHigh = false := Bool.eq_false_iff.2 hhigh
        refine Or.inl ⟨hlow, ?_⟩
        rw [if_pos (by rw [hlow]; rfl)]
        rfl

end Square

namespace Triangle

/-- The triangle with another phase time. -/
def atTime (s : Triangle) (time : Fixed) : Triangle := { s with phase := { s.phase with time } }

/-- What one sample of the triangle does. -/
theorem next_cases (s : Triangle) :
    (s.phase.Overflows ∧ s.next = .error .addOverflow) ∨
    (s.phase.period = Fixed.zero ∧ s.next = .ok (s.current, s)) ∨
    (s.phase.period ≠ Fixed.zero ∧ ∃ time, time.units = s.phase.time.units + 65536 ∧
      ((s.rising = true ∧ s.next = .ok (saturatingAdd s.current s.up,
          { s.atTime time with
            current := saturatingAdd s.current s.up, rising := decide (time < s.phase.edge) })) ∨
        (s.rising = false ∧ time < s.phase.period ∧
          s.next = .ok (saturatingAdd s.current s.down,
            { s.atTime time with current := saturatingAdd s.current s.down })) ∨
        (s.rising = false ∧ ¬ time < s.phase.period ∧ ∃ rest,
          rest.units = time.units % s.phase.period.units ∧
          s.next = .ok (s.low, { s.atTime rest with current := s.low, rising := true })))) := by
  by_cases hzero : s.phase.period = Fixed.zero
  · refine Or.inr (Or.inl ⟨hzero, ?_⟩)
    unfold next
    rw [if_pos hzero]
    rfl
  · by_cases hover : s.phase.time.AddOverflows Fixed.one
    · refine Or.inl ⟨⟨hzero, hover⟩, ?_⟩
      unfold next
      rw [if_neg hzero, Phase.advance_of_overflows hover]
      rfl
    · obtain ⟨time, hadvance, hunits⟩ := Phase.advance_of_not_overflows hover
      refine Or.inr (Or.inr ⟨hzero, time, hunits, ?_⟩)
      unfold next
      rw [if_neg hzero, hadvance]
      simp only [bind, Except.bind]
      by_cases hrising : s.rising = true
      · refine Or.inl ⟨hrising, ?_⟩
        rw [if_pos hrising]
        rfl
      · have hfalling : s.rising = false := Bool.eq_false_iff.2 hrising
        refine Or.inr ?_
        by_cases hlt : time < s.phase.period
        · refine Or.inl ⟨hfalling, hlt, ?_⟩
          rw [if_neg hrising, if_pos hlt]
          rfl
        · obtain ⟨rest, hwrap, hrest⟩ :=
            Phase.wrap_of_ne_zero (p := { s.phase with time }) hzero
          refine Or.inr ⟨hfalling, hlt, rest, hrest, ?_⟩
          rw [if_neg hrising, if_neg hlt, hwrap]
          rfl

end Triangle

namespace Noise

variable {ρ : Type} [BitSource ρ]

/-- The noise after it drew a bit. -/
def reloaded (s : Noise) (bit : Bool) : Noise :=
  { s with counter := s.prescaler, isHigh := bit, amplitude := s.amplitude.refresh }

/-- What one sample of the noise does. -/
theorem next_cases (s : Noise) (source : ρ) :
    (s.counter = 0 ∧ s.next source = .ok ((s.reloaded (BitSource.draw source).1).output,
      s.reloaded (BitSource.draw source).1, (BitSource.draw source).2)) ∨
    (s.counter ≠ 0 ∧
      s.next source = .ok (s.output, { s with counter := s.counter - 1 }, source)) := by
  by_cases hzero : s.counter = 0
  · refine Or.inl ⟨hzero, ?_⟩
    unfold next
    rw [if_pos hzero]
    rfl
  · -- the counter is taken down only when it is not zero
    have hle : 1 ≤ s.counter := by
      rw [UInt8.le_iff_toNat_le]
      exact Nat.pos_of_ne_zero fun h0 => hzero (UInt8.toNat_inj.1 h0)
    refine Or.inr ⟨hzero, ?_⟩
    unfold next
    rw [if_neg hzero]
    simp only [Checked.sub8, if_pos hle]
    rfl

end Noise

/-! ## Ticks of a phase -/

namespace Phase

/-- What one sample makes of a phase in the first part of its cycle, or in the second one. -/
inductive Tick (p : Phase) : Bool → Phase → Bool → Prop
  | first {time : Fixed} : time.units = p.time.units + 65536 →
      Tick p true { p with time } (decide (time < p.edge))
  | second {time : Fixed} : time.units = p.time.units + 65536 → time < p.period →
      Tick p false { p with time } false
  | wrap {rest : Fixed} : p.period.units ≤ p.time.units + 65536 →
      rest.units = (p.time.units + 65536) % p.period.units →
      Tick p false { p with time := rest } true

/-- A tick in terms of the time: it may leave the first part, stay in the second one, or end the
cycle. -/
theorem Tick.time_cases {p p' : Phase} {first first' : Bool} (h : p.Tick first p' first') :
    (first = true ∧ first' = decide (p.time.units + 65536 < p.edge.units) ∧
      p'.time.units = p.time.units + 65536) ∨
    (first = false ∧ first' = false ∧ p.time.units + 65536 < p.period.units ∧
      p'.time.units = p.time.units + 65536) ∨
    (first = false ∧ first' = true ∧ p.period.units ≤ p.time.units + 65536 ∧
      p'.time.units = (p.time.units + 65536) % p.period.units) := by
  cases h with
  | first htime =>
    refine Or.inl ⟨rfl, ?_, htime⟩
    rw [decide_eq_decide, Fixed.lt_iff_units, htime]
  | second htime hlt =>
    rw [Fixed.lt_iff_units, htime] at hlt
    exact Or.inr (Or.inl ⟨rfl, rfl, hlt, htime⟩)
  | wrap hend hrest => exact Or.inr (Or.inr ⟨rfl, rfl, hend, hrest⟩)

/-- A tick moves only the time. -/
theorem Tick.frame {p p' : Phase} {first first' : Bool} (h : p.Tick first p' first') :
    p'.duty = p.duty ∧ p'.period = p.period ∧ p'.edge = p.edge := by
  cases h <;> exact ⟨rfl, rfl, rfl⟩

/-- The ticks up to and with the next end of the cycle are at most this many, when neither
the edge nor the period lies beyond `reach`. -/
def wait (reach : Nat) (p : Phase) (first : Bool) : Nat :=
  (reach - p.time.units) / 65536 + if first then 2 else 1

theorem wait_pos (reach : Nat) (p : Phase) (first : Bool) : 0 < p.wait reach first := by
  unfold wait
  split <;> omega

theorem wait_le (reach : Nat) (p : Phase) (first : Bool) :
    p.wait reach first ≤ reach / 65536 + 2 := by
  have hle : (reach - p.time.units) / 65536 ≤ reach / 65536 :=
    Nat.div_le_div_right (Nat.sub_le _ _)
  unfold wait
  split <;> omega

/-- A tick that does not end the cycle brings the end nearer. -/
theorem Tick.wait_lt {p p' : Phase} {first first' : Bool} {reach : Nat}
    (h : p.Tick first p' first') (hgoes : first = false → first' = false)
    (hedge : p.edge.units ≤ reach) (hperiod : p.period.units ≤ reach) :
    p'.wait reach first' < p.wait reach first := by
  unfold wait
  rcases h.time_cases with ⟨rfl, rfl, htime⟩ | ⟨rfl, rfl, hlt, htime⟩ | ⟨rfl, rfl, -⟩
  · rw [htime]
    by_cases hbelow : p.time.units + 65536 < p.edge.units
    · -- still in the first part, so the edge lies ahead
      simp only [decide_eq_true hbelow, if_true]
      omega
    · -- past the edge: the end of the first part makes up for the time
      simp only [decide_eq_false hbelow, Bool.false_eq_true, if_false, if_true]
      omega
  · rw [htime]
    simp only [Bool.false_eq_true, if_false]
    omega
  · cases hgoes rfl

end Phase

/-- A sample of a square is the level of its part of the cycle. The levels may change where a
cycle ends. -/
theorem Square.next_tick {q : Square} (hpos : q.phase.period ≠ Fixed.zero)
    (hfit : ¬ q.phase.Overflows) :
    ∃ q', q.next = .ok (if q.isHigh then q.amplitude.high else q.amplitude.low, q') ∧
      q.phase.Tick (!q.isHigh) q'.phase (!q'.isHigh) ∧
      (q'.amplitude = q.amplitude ∨ q'.amplitude = q.amplitude.refresh) := by
  rcases q.next_cases with ⟨hover, -⟩ | ⟨hzero, -⟩ | ⟨-, time, htime, ⟨hlow, hok⟩ |
    ⟨hhigh, hlt, hok⟩ | ⟨hhigh, hpast, rest, hrest, hok⟩⟩
  · exact absurd hover hfit
  · exact absurd hzero hpos
  · have hpart : (!decide (q.phase.edge ≤ time)) = decide (time < q.phase.edge) := by
      rw [← decide_not, decide_eq_decide, Fixed.le_iff_units, Fixed.lt_iff_units]
      exact Nat.not_le
    refine ⟨{ q.atTime time with isHigh := decide (q.phase.edge ≤ time) }, ?_, ?_, Or.inl rfl⟩
    · simp only [hok, hlow, Bool.false_eq_true, if_false]
    · simp only [hlow, hpart, Bool.not_false]
      exact .first htime
  · refine ⟨q.atTime time, ?_, ?_, Or.inl rfl⟩
    · simp only [hok, hhigh, if_true]
    · simp only [atTime, hhigh, Bool.not_true]
      exact .second htime hlt
  · have hend := Nat.not_lt.1 (mt Fixed.lt_iff_units.2 hpast)
    rw [htime] at hend hrest
    refine ⟨{ q.atTime rest with isHigh := false, amplitude := q.amplitude.refresh }, ?_, ?_,
      Or.inr rfl⟩
    · simp only [hok, hhigh, if_true]
    · simp only [hhigh, Bool.not_true, Bool.not_false]
      exact .wrap hend hrest

theorem Square.tick_of_next {q q' : Square} {x : Int16} (hpos : q.phase.period ≠ Fixed.zero)
    (hok : q.next = .ok (x, q')) : q.phase.Tick (!q.isHigh) q'.phase (!q'.isHigh) := by
  have hfit : ¬ q.phase.Overflows := by
    rcases q.next_cases with ⟨-, herror⟩ | ⟨hzero, -⟩ | ⟨-, time, htime, -⟩
    · rw [hok] at herror
      cases herror
    · exact absurd hzero hpos
    · exact Phase.not_overflows_of_later htime
  obtain ⟨q₁, hnext, htick, -⟩ := next_tick hpos hfit
  rw [hok] at hnext
  cases hnext
  exact htick

/-- A sample of the triangle is a step up, a step down, or the low level where a cycle ends. -/
theorem Triangle.next_tick {r : Triangle} (hpos : r.phase.period ≠ Fixed.zero)
    (hfit : ¬ r.phase.Overflows) :
    ∃ r', r.next = .ok (r'.current, r') ∧ r.phase.Tick r.rising r'.phase r'.rising ∧
      r'.current = if r.rising then saturatingAdd r.current r.up
        else if r'.rising then r.low else saturatingAdd r.current r.down := by
  rcases r.next_cases with ⟨hover, -⟩ | ⟨hzero, -⟩ | ⟨-, time, htime, ⟨hrising, hok⟩ |
    ⟨hfalling, hlt, hok⟩ | ⟨hfalling, hpast, rest, hrest, hok⟩⟩
  · exact absurd hover hfit
  · exact absurd hzero hpos
  · refine ⟨{ r.atTime time with
      current := saturatingAdd r.current r.up, rising := decide (time < r.phase.edge) }, hok, ?_,
      (if_pos hrising).symm⟩
    rw [hrising]
    exact .first htime
  · refine ⟨{ r.atTime time with current := saturatingAdd r.current r.down }, hok, ?_, ?_⟩
    · simp only [atTime, hfalling]
      exact .second htime hlt
    · simp [atTime, hfalling]
  · have hend := Nat.not_lt.1 (mt Fixed.lt_iff_units.2 hpast)
    rw [htime] at hend hrest
    refine ⟨{ r.atTime rest with current := r.low, rising := true }, hok, ?_, ?_⟩
    · rw [hfalling]
      exact .wrap hend hrest
    · simp [hfalling]

theorem Triangle.tick_of_next {r r' : Triangle} {x : Int16}
    (hpos : r.phase.period ≠ Fixed.zero) (hok : r.next = .ok (x, r')) :
    r.phase.Tick r.rising r'.phase r'.rising := by
  have hfit : ¬ r.phase.Overflows := by
    rcases r.next_cases with ⟨-, herror⟩ | ⟨hzero, -⟩ | ⟨-, time, htime, -⟩
    · rw [hok] at herror
      cases herror
    · exact absurd hzero hpos
    · exact Phase.not_overflows_of_later htime
  obtain ⟨r₁, hnext, htick, -⟩ := next_tick hpos hfit
  rw [hok] at hnext
  cases hnext
  exact htick

/-! ## Modulation ticks of a vibrato -/

namespace Vibrato

/-- The vibrato is `place` ticks into a cycle of twice `steps` ticks. -/
structure At (v : Vibrato) (steps place : Nat) : Prop where
  steps_le : steps ≤ 128
  place_lt : place < 2 * steps
  half_eq : v.halfPeriod.units = steps * 65536
  full_eq : v.fullPeriod.units = 2 * steps * 65536
  time_eq : v.time.units = place * 65536
  rising_eq : v.rising = decide (place < steps)

theorem at_around (params : VibratoParams) (base : Fixed) :
    (around params base).At params.steps.toNat 0 where
  steps_le := params.steps_le
  place_lt := by
    have hpos := params.steps_pos
    omega
  half_eq := (units_halfPeriod params base).2
  full_eq := (units_fullPeriod params base).2
  time_eq := rfl
  rising_eq := by
    have hpos := params.steps_pos
    exact (decide_eq_true (by omega)).symm

section Step

variable {v : Vibrato} {steps place : Nat}

theorem At.full_ne_zero (h : v.At steps place) : v.fullPeriod ≠ Fixed.zero := by
  intro hzero
  have hfull := h.full_eq
  have hlt := h.place_lt
  rw [hzero, Fixed.units_zero] at hfull
  omega

/-- The clock of a vibrato tells its place. -/
theorem At.unique {steps' place' : Nat} (h : v.At steps place) (h' : v.At steps' place') :
    steps' = steps ∧ place' = place := by
  have hhalf := h.half_eq
  have hhalf' := h'.half_eq
  have htime := h.time_eq
  have htime' := h'.time_eq
  omega

/-- The time of the next tick fits the word. -/
theorem At.next_time (h : v.At steps place) :
    ∃ time, v.time.add Fixed.one = .ok time ∧ time.units = (place + 1) * 65536 := by
  have hsteps := h.steps_le
  have hplace := h.place_lt
  have hfit : ¬ v.time.AddOverflows Fixed.one := by
    unfold Fixed.AddOverflows
    rw [h.time_eq, Fixed.units_one]
    omega
  obtain ⟨time, hadd, hunits⟩ := Fixed.add_of_not_overflows hfit
  refine ⟨time, hadd, ?_⟩
  rw [hunits, h.time_eq, Fixed.units_one]
  omega

/-- The period after a tick: it grows in the first half of the cycle, shrinks in
the second, and is the base period at the end. -/
def Swings (v : Vibrato) (steps place : Nat) (period period' : Fixed) : Prop :=
  (place < steps ∧ period'.units = period.units + v.delta.units) ∨
    (steps ≤ place ∧ place + 1 < 2 * steps ∧ period' = period.monus v.delta) ∨
    (place + 1 = 2 * steps ∧ period' = v.base)

/-- What one tick of a vibrato does. -/
theorem At.step_cases (h : v.At steps place) (period : Fixed) :
    (place < steps ∧ period.AddOverflows v.delta ∧ v.step period = .error .addOverflow) ∨
    (¬ (place < steps ∧ period.AddOverflows v.delta) ∧
      ∃ period' time rising, v.step period = .ok (period', { v with time, rising }) ∧
        At { v with time, rising } steps ((place + 1) % (2 * steps)) ∧
        v.Swings steps place period period') := by
  obtain ⟨time, hadd, htime⟩ := h.next_time
  have hplace := h.place_lt
  unfold step
  rw [if_neg h.full_ne_zero, hadd]
  simp only [bind, Except.bind]
  by_cases hrise : place < steps
  · -- only the rising half adds, so only here the period may leave the word
    have hrising : v.rising = true := by rw [h.rising_eq]; exact decide_eq_true hrise
    rw [if_pos hrising]
    by_cases hover : period.AddOverflows v.delta
    · refine Or.inl ⟨hrise, hover, ?_⟩
      rw [Fixed.add_of_overflows hover]
    · obtain ⟨period', hsum, hunits⟩ := Fixed.add_of_not_overflows hover
      refine Or.inr ⟨fun hboth => hover hboth.2, period', time, decide (time < v.halfPeriod),
        ?_, ?_, Or.inl ⟨hrise, hunits⟩⟩
      · rw [hsum]
        rfl
      · rw [Nat.mod_eq_of_lt (by omega)]
        refine ⟨h.steps_le, by omega, h.half_eq, h.full_eq, htime, ?_⟩
        show decide (time < v.halfPeriod) = _
        rw [decide_eq_decide, Fixed.lt_iff_units, htime, h.half_eq]
        omega
  · have hrising : ¬ v.rising = true := by
      rw [h.rising_eq, decide_eq_true_iff]
      exact hrise
    rw [if_neg hrising]
    refine Or.inr ⟨fun hboth => hrise hboth.1, ?_⟩
    by_cases hlast : place + 1 = 2 * steps
    · -- the last tick of a cycle puts the base period back
      have hle : v.fullPeriod ≤ time := by
        rw [Fixed.le_iff_units, h.full_eq, htime]
        omega
      obtain ⟨rest, hsub, hrest⟩ := Fixed.sub_of_le (Fixed.le_iff_units.1 hle)
      refine ⟨v.base, rest, true, ?_, ?_, Or.inr (Or.inr ⟨hlast, rfl⟩)⟩
      · rw [if_pos hle, hsub]
        rfl
      · rw [hlast, Nat.mod_self]
        refine ⟨h.steps_le, by omega, h.half_eq, h.full_eq, ?_, ?_⟩
        · show rest.units = _
          rw [hrest, htime, h.full_eq, hlast]
          omega
        · exact (decide_eq_true (by omega)).symm
    · have hle : ¬ v.fullPeriod ≤ time := by
        rw [Fixed.le_iff_units, h.full_eq, htime]
        omega
      refine ⟨period.monus v.delta, time, v.rising, ?_, ?_,
        Or.inr (Or.inl ⟨by omega, by omega, rfl⟩)⟩
      · rw [if_neg hle]
        rfl
      · rw [Nat.mod_eq_of_lt (by omega)]
        refine ⟨h.steps_le, by omega, h.half_eq, h.full_eq, htime, ?_⟩
        show v.rising = _
        rw [Bool.eq_false_iff.2 hrising]
        exact (decide_eq_false (by omega)).symm

end Step

end Vibrato

namespace Square

/-- An enabled vibrato is at a place of its cycle. -/
def HasPlace (s : Square) : Prop :=
  s.vibrato.enabled = true → ∃ steps place, s.vibrato.At steps place

/-- The next modulation tick lengthens the period beyond the word. -/
def PeriodOverflows (s : Square) : Prop :=
  s.vibrato.enabled = true ∧ s.vibrato.rising = true ∧ s.phase.period.AddOverflows s.vibrato.delta

instance (s : Square) : Decidable s.PeriodOverflows := inferInstanceAs (Decidable (_ ∧ _ ∧ _))

/-- The square with another period. -/
def withPeriod (s : Square) (period : Fixed) : Square :=
  { s with phase := { s.phase with period, edge := Phase.edgeAt period s.phase.duty } }

theorem stepVibrato_eq {s : Square} {period : Fixed} {vibrato : Vibrato}
    (h : s.vibrato.step s.phase.period = .ok (period, vibrato)) :
    s.stepVibrato = .ok { s.withPeriod period with vibrato } := by
  unfold stepVibrato
  rw [h]
  simp only [bind, Except.bind, Phase.setPeriod_eq]
  rfl

/-- What the vibrato part of a modulation tick does. -/
theorem modulateVibrato_cases {s : Square} (h : s.HasPlace) :
    (s.PeriodOverflows ∧ s.modulateVibrato = .error .addOverflow) ∨
    (s.vibrato.enabled = false ∧ s.modulateVibrato = .ok s) ∨
    (s.vibrato.enabled = true ∧ ¬ s.PeriodOverflows ∧
      ∃ steps place period time rising, s.vibrato.At steps place ∧
        Vibrato.At { s.vibrato with time, rising } steps ((place + 1) % (2 * steps)) ∧
        s.vibrato.Swings steps place s.phase.period period ∧
        s.modulateVibrato =
          .ok { s.withPeriod period with vibrato := { s.vibrato with time, rising } }) := by
  by_cases henabled : s.vibrato.enabled = true
  · obtain ⟨steps, place, hat⟩ := h henabled
    have hrising : s.vibrato.rising = true ↔ place < steps := by
      rw [hat.rising_eq, decide_eq_true_iff]
    have hmodulate : s.modulateVibrato = s.stepVibrato := if_pos henabled
    rcases hat.step_cases s.phase.period with
      ⟨hrise, hover, herror⟩ | ⟨hnot, period, time, rising, hok, hat', hswings⟩
    · refine Or.inl ⟨⟨henabled, hrising.2 hrise, hover⟩, ?_⟩
      rw [hmodulate]
      unfold stepVibrato
      rw [herror]
      rfl
    · refine Or.inr (Or.inr ⟨henabled, ?_, steps, place, period, time, rising, hat, hat',
        hswings, ?_⟩)
      · rintro ⟨-, hrise, hover⟩
        exact hnot ⟨hrising.1 hrise, hover⟩
      · rw [hmodulate]
        exact stepVibrato_eq hok
  · exact Or.inr (Or.inl ⟨Bool.eq_false_iff.2 henabled, if_neg henabled⟩)

end Square

/-! ## Modulation ticks of an envelope -/

namespace Envelope

/-- The factor and what it can become in one step are at most one. -/
structure Bounded (e : Envelope) : Prop where
  factor_le : e.factor.units ≤ 65536
  attack_le : e.attackStep.units ≤ 65536
  sustain_le : e.sustainFactor.units ≤ 65536

theorem bounded_fresh : fresh.Bounded := ⟨by decide, by decide, by decide⟩

/-- The units of a step that makes up one in so many ticks. -/
def stepUnits (ticks instant : Nat) : Nat := if ticks = 0 then instant else 65536 / ticks

theorem units_stepOf (ticks : UInt8) (instant : Fixed) :
    (stepOf ticks instant).units = stepUnits ticks.toNat instant.units := by
  simp only [stepOf, stepUnits]
  by_cases hzero : ticks = 0
  · subst hzero
    rfl
  · have hne : ticks.toNat ≠ 0 := fun h => hzero (UInt8.toNat_inj.1 h)
    rw [if_neg hzero, if_neg hne]
    show (Fixed.one.raw / ticks.toUInt32).toNat = _
    rw [UInt32.toNat_div, UInt8.toNat_toUInt32]
    rfl

/-- As many ticks as a stage lasts and one more make up one, whatever the division cut off. -/
theorem stepUnits_bounds {ticks instant : Nat} (hticks : ticks ≤ 127) (hinstant : 65536 ≤ instant) :
    516 ≤ stepUnits ticks instant ∧ 65536 ≤ stepUnits ticks instant * (ticks + 1) := by
  simp only [stepUnits]
  by_cases hzero : ticks = 0
  · rw [if_pos hzero, hzero]
    omega
  · rw [if_neg hzero]
    have hstep : 516 ≤ 65536 / ticks :=
      calc 516 = 65536 / 127 := rfl
        _ ≤ 65536 / ticks := Nat.div_le_div_left hticks (Nat.pos_of_ne_zero hzero)
    have hsplit := Nat.div_add_mod 65536 ticks
    have hrest := Nat.mod_lt 65536 (Nat.pos_of_ne_zero hzero)
    refine ⟨hstep, ?_⟩
    rw [Nat.mul_add, Nat.mul_one, Nat.mul_comm]
    omega

theorem units_stepOf_le (ticks : UInt8) : (stepOf ticks Fixed.one).units ≤ 65536 := by
  rw [units_stepOf, stepUnits]
  split
  · exact Nat.le_refl _
  · exact Nat.div_le_self _ _

theorem units_sustainAt_clamped_le (params : EnvelopeParams) :
    (sustainAt params.clamped.sustain).units ≤ 65536 := by
  have hmin := toNat_min_limit params.sustain
  rw [units_sustainAt]
  simp only [EnvelopeParams.clamped, hmin]
  omega

theorem Bounded.withParams {e : Envelope} (h : e.Bounded) (params : EnvelopeParams) :
    (e.withParams params).Bounded where
  factor_le := h.factor_le
  attack_le := units_stepOf_le _
  sustain_le := units_sustainAt_clamped_le params

theorem Bounded.trigger {e : Envelope} (h : e.Bounded) : e.trigger.Bounded :=
  ⟨Nat.zero_le _, h.attack_le, h.sustain_le⟩

/-- What one tick makes of an envelope. A tick that moves the factor marks it. -/
inductive Tick (e : Envelope) : Envelope → Prop
  | rest : e.stage = .off ∨ e.stage = .sustain → Tick e e
  | climb {factor : Fixed} : e.stage = .attack →
      factor.units = e.factor.units + e.attackStep.units → factor.units < 65536 →
      Tick e { e with factor, pending := true }
  | top : e.stage = .attack → 65536 ≤ e.factor.units + e.attackStep.units →
      Tick e { e with factor := Fixed.one, stage := .decay, pending := true }
  | sink {factor : Fixed} : e.stage = .decay →
      factor.units + e.decayStep.units = e.factor.units →
      e.sustainFactor.units < factor.units → Tick e { e with factor, pending := true }
  | settle : e.stage = .decay →
      e.factor.units ≤ e.sustainFactor.units + e.decayStep.units →
      Tick e { e with factor := e.sustainFactor, stage := .sustain, pending := true }
  | fade {factor : Fixed} : e.stage = .release →
      factor.units + e.releaseStep.units = e.factor.units → 0 < factor.units →
      Tick e { e with factor, pending := true }
  | finish : e.stage = .release → e.factor.units ≤ e.releaseStep.units →
      Tick e { e with factor := Fixed.zero, stage := .off, pending := true }

theorem tick_of_attack {e : Envelope} (hstage : e.stage = .attack) :
    (e.factor.AddOverflows e.attackStep ∧ e.step = .error .addOverflow) ∨
      ∃ e', e.step = .ok e' ∧ Tick e e' := by
  by_cases hover : e.factor.AddOverflows e.attackStep
  · refine Or.inl ⟨hover, ?_⟩
    simp only [step, hstage, stepAttack, Fixed.add_of_overflows hover]
    rfl
  · obtain ⟨factor, hadd, hunits⟩ := Fixed.add_of_not_overflows hover
    right
    by_cases htop : Fixed.one ≤ factor
    · refine ⟨_, ?_, .top hstage ?_⟩
      · simp only [step, hstage, stepAttack, hadd, bind, Except.bind, if_pos htop]
        rfl
      · rw [← hunits]
        exact Fixed.le_iff_units.1 htop
    · refine ⟨_, ?_, .climb hstage hunits ?_⟩
      · simp only [step, hstage, stepAttack, hadd, bind, Except.bind, if_neg htop]
        rfl
      · exact Nat.not_le.1 fun hle => htop (Fixed.le_iff_units.2 hle)

theorem tick_of_decay {e : Envelope} (hstage : e.stage = .decay) :
    ∃ e', e.step = .ok e' ∧ Tick e e' := by
  by_cases hle : e.decayStep ≤ e.factor
  · obtain ⟨factor, hsub, hunits⟩ := Fixed.sub_of_le (Fixed.le_iff_units.1 hle)
    have hsum : factor.units + e.decayStep.units = e.factor.units := by
      rw [Fixed.le_iff_units] at hle
      omega
    by_cases hlow : factor ≤ e.sustainFactor
    · refine ⟨_, ?_, .settle hstage ?_⟩
      · simp only [step, hstage, stepDecay, if_pos hle, hsub, bind, Except.bind, if_pos hlow]
        rfl
      · rw [Fixed.le_iff_units] at hlow
        omega
    · refine ⟨_, ?_, .sink hstage hsum ?_⟩
      · simp only [step, hstage, stepDecay, if_pos hle, hsub, bind, Except.bind, if_neg hlow]
        rfl
      · exact Nat.not_le.1 fun hle => hlow (Fixed.le_iff_units.2 hle)
  · -- a factor below the step is below the sustain level after it
    refine ⟨_, ?_, .settle hstage ?_⟩
    · simp only [step, hstage, stepDecay, if_neg hle]
      rfl
    · rw [Fixed.le_iff_units] at hle
      omega

theorem tick_of_release {e : Envelope} (hstage : e.stage = .release) :
    ∃ e', e.step = .ok e' ∧ Tick e e' := by
  by_cases hle : e.factor ≤ e.releaseStep
  · refine ⟨_, ?_, .finish hstage (Fixed.le_iff_units.1 hle)⟩
    simp only [step, hstage, stepRelease, if_pos hle]
    rfl
  · have hlt : e.releaseStep.units < e.factor.units :=
      Nat.not_le.1 fun h => hle (Fixed.le_iff_units.2 h)
    obtain ⟨factor, hsub, hunits⟩ := Fixed.sub_of_le (Nat.le_of_lt hlt)
    have hsum : factor.units + e.releaseStep.units = e.factor.units := by omega
    refine ⟨_, ?_, .fade hstage hsum (by omega)⟩
    simp only [step, hstage, stepRelease, if_neg hle, hsub, bind, Except.bind]
    rfl

/-- What one tick of an envelope does. Only the attack adds, so only there the factor may
leave the word. -/
theorem step_cases (e : Envelope) :
    (e.factor.AddOverflows e.attackStep ∧ e.step = .error .addOverflow) ∨
      ∃ e', e.step = .ok e' ∧ Tick e e' := by
  cases hstage : e.stage with
  | off =>
    refine Or.inr ⟨e, ?_, .rest (Or.inl hstage)⟩
    simp only [step, hstage]
  | sustain =>
    refine Or.inr ⟨e, ?_, .rest (Or.inr hstage)⟩
    simp only [step, hstage]
  | attack => exact tick_of_attack hstage
  | decay => exact Or.inr (tick_of_decay hstage)
  | release => exact Or.inr (tick_of_release hstage)

theorem tick_of_step {e e' : Envelope} (hok : e.step = .ok e') : Tick e e' := by
  rcases e.step_cases with ⟨-, herror⟩ | ⟨e₁, hok₁, htick⟩
  · rw [herror] at hok
    cases hok
  · rw [hok₁] at hok
    cases hok
    exact htick

theorem Bounded.tick {e : Envelope} (h : e.Bounded) : ∃ e', e.step = .ok e' ∧ Tick e e' := by
  rcases e.step_cases with ⟨hover, -⟩ | htick
  · have hfactor := h.factor_le
    have hattack := h.attack_le
    simp only [Fixed.AddOverflows] at hover
    omega
  · exact htick

/-- A step of a bounded envelope changes the factor, the stage and the mark. -/
theorem Bounded.step {e : Envelope} (h : e.Bounded) :
    ∃ factor stage pending, e.step = .ok { e with factor, stage, pending } ∧
      factor.units ≤ 65536 := by
  have hfactor := h.factor_le
  obtain ⟨e', hok, htick⟩ := h.tick
  cases htick with
  | rest _ => exact ⟨e.factor, e.stage, e.pending, hok, hfactor⟩
  | @climb factor _ _ hlt => exact ⟨factor, e.stage, true, hok, Nat.le_of_lt hlt⟩
  | top _ _ => exact ⟨Fixed.one, .decay, true, hok, Nat.le_refl _⟩
  | @sink factor _ hsum _ => exact ⟨factor, e.stage, true, hok, by omega⟩
  | settle _ _ => exact ⟨e.sustainFactor, .sustain, true, hok, h.sustain_le⟩
  | @fade factor _ hsum _ => exact ⟨factor, e.stage, true, hok, by omega⟩
  | finish _ _ => exact ⟨Fixed.zero, .off, true, hok, Nat.zero_le _⟩

end Envelope

/-! ## Amplitudes -/

namespace Amplitude

/-- The levels that the factor gives, and the factor marked as taken. -/
def taken (a : Amplitude) : Amplitude where
  limit := a.limit
  high := scaledLevel a.limit a.envelope.factor
  low := -scaledLevel a.limit a.envelope.factor
  envelope := { a.envelope with pending := false }

/-- What the opening of a cycle does. -/
theorem refresh_cases (a : Amplitude) :
    (a.envelope.pending = false ∧ a.refresh = a) ∨
      (a.envelope.pending = true ∧ a.refresh = a.taken) := by
  cases hpending : a.envelope.pending with
  | false => simp [refresh, Envelope.takePending, hpending]
  | true => simp [refresh, Envelope.takePending, taken, hpending]

theorem modulate_of_disabled {a : Amplitude} (h : a.envelope.enabled = false) :
    a.modulate = .ok a := by
  simp [modulate, h]

theorem modulate_of_enabled {a : Amplitude} (h : a.envelope.enabled = true) :
    a.modulate = a.envelope.step >>= fun envelope => .ok { a with envelope } := by
  simp only [modulate, h, if_true]
  rfl

/-- What a modulation tick does: the levels stay, and an enabled envelope ticks. -/
theorem modulate_cases {a a' : Amplitude} (hok : a.modulate = .ok a') :
    (a.envelope.enabled = false ∧ a' = a) ∨
      (a.envelope.enabled = true ∧
        ∃ envelope, a.envelope.step = .ok envelope ∧ a' = { a with envelope }) := by
  cases henabled : a.envelope.enabled with
  | false =>
    rw [modulate_of_disabled henabled] at hok
    cases hok
    exact Or.inl ⟨rfl, rfl⟩
  | true =>
    rw [modulate_of_enabled henabled] at hok
    cases hstep : a.envelope.step with
    | error f =>
      rw [hstep] at hok
      cases hok
    | ok envelope =>
      rw [hstep] at hok
      cases hok
      exact Or.inr ⟨rfl, envelope, rfl, rfl⟩

/-- A modulation tick keeps the levels and a bounded envelope. -/
theorem modulate_of_bounded {a : Amplitude} (h : a.envelope.Bounded) :
    ∃ envelope, a.modulate = .ok { a with envelope } ∧ envelope.Bounded := by
  cases henabled : a.envelope.enabled with
  | false => exact ⟨a.envelope, modulate_of_disabled henabled, h⟩
  | true =>
    obtain ⟨factor, stage, pending, hok, hle⟩ := h.step
    rw [modulate_of_enabled henabled, hok]
    exact ⟨_, rfl, hle, h.attack_le, h.sustain_le⟩

end Amplitude

end Chiptune
