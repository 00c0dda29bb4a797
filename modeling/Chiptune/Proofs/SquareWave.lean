import Chiptune.Proofs.PhaseClock
import Mathlib.Algebra.Order.Floor.Div
import Mathlib.GroupTheory.GroupAction.Ring

/-!
# The wave of a square

A square is a machine with two states that carries the fraction of a sample from one cycle into
the next. `squareWave` is what it is meant to compute: the level at an index is known from the
place of the index in its cycle alone, however many cycles came before.

The two agree when both parts of the cycle last at least one sample (`InWave.next`). Then the
second part begins before the period ends, and the fraction that a cycle carries over, which is
less than a sample, never reaches the edge. A cycle is one run of the low level and one of the
high level, as long as the two parts up to less than a sample (`runs_of_cycle`).
-/

set_option autoImplicit false

namespace Chiptune

/-! ## The formula -/

/-- The sample at an index of a square wave whose cycles are low up to the edge and high from
there on. Times are in parts of 65536 of a sample. -/
def squareWave (period edge : Nat) (level : Int) (i : Nat) : Int :=
  if i * 65536 % period < edge then -level else level

/-- The index at which a cycle begins: the first that is not before its time. -/
def cycleStart (period k : Nat) : Nat := (k * period) ⌈/⌉ 65536

/-- The index at which a cycle turns from low to high. -/
def cycleTurn (period edge k : Nat) : Nat := (k * period + edge) ⌈/⌉ 65536

section Runs

variable {period edge k : Nat}

/-- The first index that is not before a time is less than a sample behind it. -/
theorem ceilDiv_sample_bounds (time : Nat) :
    time ≤ (time ⌈/⌉ 65536) * 65536 ∧ (time ⌈/⌉ 65536) * 65536 < time + 65536 := by
  rw [Nat.ceilDiv_eq_add_pred_div]
  omega

/-- A time within a cycle lies as far into it as it is behind its beginning. -/
theorem mod_eq_sub_of_cycle {time : Nat} (hge : k * period ≤ time)
    (hlt : time < k * period + period) : time % period = time - k * period := by
  refine Nat.mod_eq_iff.2 (Or.inr ⟨by omega, k, ?_⟩)
  rw [Nat.mul_comm period k]
  omega

theorem squareWave_of_low {i : Nat} (level : Int) (hedge : edge ≤ period)
    (hge : cycleStart period k ≤ i) (hlt : i < cycleTurn period edge k) :
    squareWave period edge level i = -level := by
  have hstart := ceilDiv_sample_bounds (k * period)
  have hturn := ceilDiv_sample_bounds (k * period + edge)
  unfold cycleStart at hge
  unfold cycleTurn at hlt
  have hplace : i * 65536 % period = i * 65536 - k * period :=
    mod_eq_sub_of_cycle (by omega) (by omega)
  rw [squareWave, if_pos (by omega)]

theorem squareWave_of_high {i : Nat} (level : Int)
    (hge : cycleTurn period edge k ≤ i) (hlt : i < cycleStart period (k + 1)) :
    squareWave period edge level i = level := by
  have hturn := ceilDiv_sample_bounds (k * period + edge)
  have hend := ceilDiv_sample_bounds ((k + 1) * period)
  have hnext : (k + 1) * period = k * period + period := Nat.succ_mul k period
  unfold cycleTurn at hge
  unfold cycleStart at hlt
  have hplace : i * 65536 % period = i * 65536 - k * period :=
    mod_eq_sub_of_cycle (by omega) (by omega)
  rw [squareWave, if_neg (by omega)]

/-- Each run of a cycle is as long as its part of the cycle, up to less than a sample. -/
theorem run_bounds (period edge k : Nat) (hedge : edge ≤ period) :
    let low := cycleTurn period edge k - cycleStart period k
    let high := cycleStart period (k + 1) - cycleTurn period edge k
    cycleStart period k + low = cycleTurn period edge k ∧
      cycleTurn period edge k + high = cycleStart period (k + 1) ∧
      low * 65536 < edge + 65536 ∧ edge < low * 65536 + 65536 ∧
      high * 65536 < period - edge + 65536 ∧ period - edge < high * 65536 + 65536 := by
  have hstart := ceilDiv_sample_bounds (k * period)
  have hturn := ceilDiv_sample_bounds (k * period + edge)
  have hend := ceilDiv_sample_bounds ((k + 1) * period)
  have hnext : (k + 1) * period = k * period + period := Nat.succ_mul k period
  simp only [cycleStart, cycleTurn]
  omega

/-- From the beginning to the end of a cycle the wave is one low run and one high run. -/
theorem runs_of_cycle (level : Int) (hedge : edge ≤ period) :
    ((List.range (cycleStart period (k + 1))).map (squareWave period edge level)).drop
        (cycleStart period k) =
      List.replicate (cycleTurn period edge k - cycleStart period k) (-level) ++
        List.replicate (cycleStart period (k + 1) - cycleTurn period edge k) level := by
  obtain ⟨hlow, hhigh, -⟩ := run_bounds period edge k hedge
  generalize hl : cycleTurn period edge k - cycleStart period k = low at hlow ⊢
  generalize hh : cycleStart period (k + 1) - cycleTurn period edge k = high at hhigh ⊢
  have hindices : (List.range (cycleStart period (k + 1))).drop (cycleStart period k) =
      List.range' (cycleStart period k) low ++ List.range' (cycleTurn period edge k) high := by
    rw [← hhigh, ← hlow, List.range_eq_range', List.drop_range', List.range'_append_1]
    congr 1 <;> omega
  rw [← List.map_drop, hindices, List.map_append]
  congr 1
  · refine List.eq_replicate_iff.2 ⟨by simp, ?_⟩
    intro x hx
    obtain ⟨i, hi, rfl⟩ := List.mem_map.1 hx
    have hrange := List.mem_range'_1.1 hi
    exact squareWave_of_low level hedge hrange.1 (by omega)
  · refine List.eq_replicate_iff.2 ⟨by simp, ?_⟩
    intro x hx
    obtain ⟨i, hi, rfl⟩ := List.mem_map.1 hx
    have hrange := List.mem_range'_1.1 hi
    exact squareWave_of_high level hrange.1 (by omega)

end Runs

/-! ## The machine -/

namespace Square

/-- The square after `n` samples of a note, which are those of the formula. -/
structure InWave (q₀ : Square) (n : Nat) (xs : List Int16) (q : Square) : Prop where
  samples_eq : xs.map Int16.toInt = (List.range n).map
    (squareWave q₀.phase.period.units q₀.phase.edge.units q₀.amplitude.high.toInt)
  period_eq : q.phase.period = q₀.phase.period
  edge_eq : q.phase.edge = q₀.phase.edge
  time_eq : q.phase.time.units = n * 65536 % q₀.phase.period.units
  high_eq : q.isHigh = decide (q₀.phase.edge.units ≤ q.phase.time.units)
  amplitude_eq : q.amplitude = q₀.amplitude
  vibrato_eq : q.vibrato = q₀.vibrato

section Samples

variable {q₀ q : Square} {n : Nat} {xs : List Int16}

/-- Both parts of the cycle last at least one sample, and two more fit the word. -/
structure Wide (q : Square) : Prop where
  low_ge : 65536 ≤ q.phase.edge.units
  high_ge : 65536 ≤ q.phase.period.units - q.phase.edge.units
  period_le : q.phase.period.units ≤ 2 ^ 32 - 131072

/-- A tick of a wide cycle moves the time modulo the period and switches at the edge. -/
theorem tick_in_wave {p p' : Phase} {period edge n : Nat} {isHigh isHigh' : Bool}
    (hperiod : p.period.units = period) (hedge : p.edge.units = edge)
    (htime : p.time.units = n * 65536 % period) (hhigh : isHigh = decide (edge ≤ p.time.units))
    (hlow : 65536 ≤ edge) (hrest : 65536 ≤ period - edge)
    (htick : p.Tick (!isHigh) p' (!isHigh')) :
    p'.time.units = (n + 1) * 65536 % period ∧ isHigh' = decide (edge ≤ p'.time.units) := by
  have hmod : (n + 1) * 65536 % period = (p.time.units + 65536) % period := by
    rw [htime, Nat.mod_add_mod, Nat.succ_mul]
  have hlt : p.time.units < period := by
    rw [htime]
    exact Nat.mod_lt _ (by omega)
  rw [hmod]
  rcases htick.time_cases with ⟨hpart, hpart', hnext⟩ | ⟨hpart, hpart', hinside, hnext⟩ |
    ⟨-, hpart', hend, hover⟩
  · -- below the edge the next sample is still within the period
    have hbelow : p.time.units < edge := by simpa [hhigh] using hpart
    rw [hnext, Nat.mod_eq_of_lt (by omega)]
    refine ⟨rfl, ?_⟩
    rw [← Bool.not_inj_iff, hpart', hedge, ← decide_not, decide_eq_decide]
    exact Nat.not_le.symm
  · have habove : edge ≤ p.time.units := by simpa [hhigh] using hpart
    rw [hperiod] at hinside
    rw [hnext, Nat.mod_eq_of_lt hinside, decide_eq_true (by omega)]
    exact ⟨rfl, by simpa using hpart'⟩
  · -- what is carried over is less than a sample, and the edge is a sample away
    rw [hperiod] at hend hover
    refine ⟨hover, ?_⟩
    rw [Nat.mod_eq_sub_mod hend, Nat.mod_eq_of_lt (by omega)] at hover
    rw [decide_eq_false (by omega)]
    simpa using hpart'

/-- The square at the start of a note that needs no change of level. -/
structure Settled (q : Square) : Prop where
  time_eq : q.phase.time = Fixed.zero
  isHigh_eq : q.isHigh = false
  low_eq : q.amplitude.low.toInt = -q.amplitude.high.toInt
  pending_eq : q.amplitude.envelope.pending = false

theorem inWave_start (hwide : q₀.Wide) (hsettled : q₀.Settled) : InWave q₀ 0 [] q₀ where
  samples_eq := rfl
  period_eq := rfl
  edge_eq := rfl
  time_eq := by rw [hsettled.time_eq, Nat.zero_mul, Nat.zero_mod, Fixed.units_zero]
  high_eq := by
    have hlow := hwide.low_ge
    rw [hsettled.isHigh_eq, hsettled.time_eq, Fixed.units_zero, decide_eq_false (by omega)]
  amplitude_eq := rfl
  vibrato_eq := rfl

/-- The next sample is there, and it is that of the formula. -/
theorem InWave.next (h : InWave q₀ n xs q) (hwide : q₀.Wide) (hsettled : q₀.Settled) :
    ∃ x q', q.next = .ok (x, q') ∧ InWave q₀ (n + 1) (xs ++ [x]) q' := by
  have hlow := hwide.low_ge
  have hhigh := hwide.high_ge
  have hperiod := hwide.period_le
  have hlt : q.phase.time.units < q₀.phase.period.units := by
    rw [h.time_eq]
    exact Nat.mod_lt _ (by omega)
  have hpos : q.phase.period ≠ Fixed.zero := by
    intro hzero
    rw [← h.period_eq, hzero, Fixed.units_zero] at hlt
    omega
  have hfit : ¬ q.phase.Overflows := by
    rintro ⟨-, hover⟩
    simp only [Fixed.AddOverflows, Fixed.units_one] at hover
    omega
  obtain ⟨q', hok, htick, hamplitude⟩ := next_tick hpos hfit
  obtain ⟨-, hvibrato, -⟩ := next_frame hok
  obtain ⟨-, hsamePeriod, hsameEdge⟩ := htick.frame
  obtain ⟨htime, hswitch⟩ := tick_in_wave (congrArg Fixed.units h.period_eq)
    (congrArg Fixed.units h.edge_eq) h.time_eq h.high_eq hlow hhigh htick
  -- with nothing pending the end of a cycle changes no level
  have hrefresh : q.amplitude.refresh = q.amplitude := by
    rcases q.amplitude.refresh_cases with ⟨-, hsame⟩ | ⟨hpending, -⟩
    · exact hsame
    · rw [h.amplitude_eq, hsettled.pending_eq] at hpending
      cases hpending
  rw [hrefresh, or_self] at hamplitude
  refine ⟨_, q', hok, ?_, hsamePeriod.trans h.period_eq, hsameEdge.trans h.edge_eq, htime, hswitch,
    hamplitude.trans h.amplitude_eq, hvibrato.trans h.vibrato_eq⟩
  rw [List.map_append, h.samples_eq, List.range_succ, List.map_append, List.map_singleton,
    List.map_singleton, squareWave, ← h.time_eq, h.high_eq, h.amplitude_eq]
  by_cases hbelow : q.phase.time.units < q₀.phase.edge.units
  · rw [if_pos hbelow, if_neg (by simpa using hbelow), hsettled.low_eq]
  · rw [if_neg hbelow, if_pos (by simpa using hbelow)]

end Samples

/-- A note on a square with a disabled envelope starts settled at the level of its velocity. -/
theorem settled_noteOn {q : Square} (hdisabled : q.amplitude.envelope.enabled = false)
    (hpending : q.amplitude.envelope.pending = false) (t : Tuning) (note velocity : UInt8) :
    (q.performed t (.noteOn note velocity)).Settled ∧
      (q.performed t (.noteOn note velocity)).amplitude.high.toInt = 32 * velocity.toNat ∧
      (q.performed t (.noteOn note velocity)).amplitude.envelope = q.amplitude.envelope := by
  have hbegun : q.amplitude.begun velocity =
      { q.amplitude with
        limit := Amplitude.levelFor velocity
        high := Amplitude.levelFor velocity
        low := -Amplitude.levelFor velocity } := by
    simp [Amplitude.begun, hdisabled]
  have hlevel := Amplitude.toInt_levelFor velocity
  simp only [performed, hbegun]
  exact ⟨⟨rfl, rfl, toInt_neg_of_ne (by omega), hpending⟩, hlevel, trivial⟩

/-- With the envelope and the vibrato off a modulation tick changes nothing. -/
theorem modulate_of_disabled {q : Square} (henvelope : q.amplitude.envelope.enabled = false)
    (hvibrato : q.vibrato.enabled = false) :
    q.modulateVibrato = .ok q ∧ q.modulateEnvelope = .ok q := by
  constructor
  · simp [modulateVibrato, hvibrato]
  · exact modulateEnvelope_eq_ok.2 ⟨_, Amplitude.modulate_of_disabled henvelope, rfl⟩

/-- A square with any past, its envelope disabled and no change of level pending, after the start
of a note of any tuning, with any velocity and duty. If both parts of its cycle last at least one
sample and two samples more than the period fit the word, every sample is there and is that of
the formula; with the vibrato off, modulation ticks between the samples change nothing. So each
cycle is a low run and then a high run, and their lengths differ from those of the two parts by
less than a sample. -/
theorem square_follows_formula (q : Square) (t : Tuning) (note velocity : UInt8)
    (hdisabled : q.amplitude.envelope.enabled = false)
    (hpending : q.amplitude.envelope.pending = false) :
    ∃ q₀, q.noteOn t note velocity = .ok q₀ ∧
      let period := (t.period note).units
      let edge := q₀.phase.edge.units
      let level : Int := 32 * velocity.toNat
      65536 ≤ edge → 65536 ≤ period - edge → period ≤ 2 ^ 32 - 131072 →
        (∀ n, ∃ xs q', samples next n q₀ = .ok (xs, q') ∧
          xs.map Int16.toInt = (List.range n).map (squareWave period edge level) ∧
          (q.vibrato.enabled = false →
            q'.modulateVibrato = .ok q' ∧ q'.modulateEnvelope = .ok q')) ∧
        ∀ k, ∃ low high xs q', samples next (cycleStart period (k + 1)) q₀ = .ok (xs, q') ∧
          cycleStart period k + low + high = cycleStart period (k + 1) ∧
          (xs.map Int16.toInt).drop (cycleStart period k) =
            List.replicate low (-level) ++ List.replicate high level ∧
          |(low * 65536 : Int) - edge| < 65536 ∧
          |(high * 65536 : Int) - (period - edge : Nat)| < 65536 := by
  have hok : q.noteOn t note velocity = .ok (q.performed t (.noteOn note velocity)) :=
    q.perform_eq t (.noteOn note velocity)
  refine ⟨_, hok, ?_⟩
  intro period edge level hlow hhigh hperiod
  obtain ⟨hsettled, hlevel, henvelope⟩ := settled_noteOn hdisabled hpending t note velocity
  have hwide : (q.performed t (.noteOn note velocity)).Wide := ⟨hlow, hhigh, hperiod⟩
  have hwave (n : Nat) : ∃ xs q', samples next n (q.performed t (.noteOn note velocity)) =
      .ok (xs, q') ∧ InWave (q.performed t (.noteOn note velocity)) n xs q' ∧
      xs.map Int16.toInt = (List.range n).map (squareWave period edge level) := by
    obtain ⟨xs, q', hsamples, hin⟩ := samples_keep (inWave_start hwide hsettled)
      (fun n xs u hu => hu.next hwide hsettled) n
    have hxs := hin.samples_eq
    rw [hlevel] at hxs
    exact ⟨xs, q', hsamples, hin, hxs⟩
  refine ⟨fun n => ?_, fun k => ?_⟩
  · obtain ⟨xs, q', hsamples, hin, hxs⟩ := hwave n
    refine ⟨xs, q', hsamples, hxs, fun hoff => ?_⟩
    apply modulate_of_disabled
    · rw [hin.amplitude_eq, henvelope]
      exact hdisabled
    · rw [hin.vibrato_eq]
      simp [performed, hoff]
  · obtain ⟨xs, q', hsamples, -, hxs⟩ := hwave (cycleStart period (k + 1))
    have hinside : edge ≤ period := by omega
    obtain ⟨hturn, hend, hbounds⟩ := run_bounds period edge k hinside
    refine ⟨cycleTurn period edge k - cycleStart period k,
      cycleStart period (k + 1) - cycleTurn period edge k, xs, q', hsamples, by omega, ?_, ?_, ?_⟩
    · rw [hxs]
      exact runs_of_cycle level hinside
    · rw [abs_lt]
      omega
    · rw [abs_lt]
      omega

/-- A cycle of two and a half samples that is low for about one of them: the first cycle has two
low samples and one high one, the second one of each, and so on. -/
theorem square_follows_formula_for_short_cycles :
    let t : Tuning := ⟨48000, Vector.replicate 128 ⟨163840⟩⟩
    let q := Square.fresh 110
    q.amplitude.envelope.enabled = false ∧ q.amplitude.envelope.pending = false ∧
      ∃ q₀, q.noteOn t 69 100 = .ok q₀ ∧ q₀.phase.edge.units = 70620 ∧
        ∃ xs q', samples next 10 q₀ = .ok (xs, q') ∧ xs.map Int16.toInt =
          [-3200, -3200, 3200, -3200, 3200, -3200, -3200, 3200, -3200, 3200] := by
  intro t q
  obtain ⟨q₀, hon, hwave⟩ := square_follows_formula q t 69 100 rfl rfl
  have hperiod : t.period 69 = ⟨163840⟩ := Tuning.period_uniform _ _ _
  have hedge : q₀.phase.edge.units = 70620 := by
    have heval : (q.noteOn t 69 100).toOption.map (fun u => u.phase.edge.units) = some 70620 := by
      decide +kernel
    rw [hon] at heval
    exact Option.some.inj heval
  rw [hedge, hperiod] at hwave
  obtain ⟨hsamples, -⟩ := hwave (by decide) (by decide) (by decide)
  obtain ⟨xs, q', hok, hxs, -⟩ := hsamples 10
  exact ⟨rfl, rfl, q₀, hon, hedge, xs, q', hok, hxs.trans (by decide +kernel)⟩

end Square

end Chiptune
