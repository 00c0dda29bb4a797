import Chiptune.Proofs.Handshake
import Mathlib.Algebra.Order.Field.Rat
import Mathlib.Tactic.Linarith

/-!
# Cycles of a vibrato

A vibrato is given the period of a voice on each modulation tick and returns the next one.
When every tick is given what the last one returned, the period goes up and down in a
straight line: `stepsOut` counts the steps it is away from where its cycle began. The first
cycle begins at whatever period the voice has. Its last tick puts the base period there, so
every later cycle begins at the base.

`InCycle` says this of the state after some ticks. One tick keeps it (`InCycle.step`), hence
every number of ticks does (`inCycle_ticks`), and this is the period after any number of
ticks (`period_follows_cycle`). The height of a cycle is the depth of the vibrato up to the
rounding of one step (`peak_bounds`).
-/

set_option autoImplicit false

namespace Chiptune.Vibrato

/-! ## The step of a tick -/

/-- The depth as a fraction of the period, in units of one part in 65536. -/
def ratioUnits (depth : UInt8) : Nat := depth.toNat * 2410580 / 65536

/-- The units that one tick adds to the period or takes off it. -/
def deltaUnits (params : VibratoParams) (base : Fixed) : Nat :=
  base.units * ratioUnits params.depth / 65536 / params.steps.toNat

theorem ratioUnits_le (depth : UInt8) : ratioUnits depth ≤ 9379 := by
  have hdepth := depth.toNat_lt
  simp only [ratioUnits]
  omega

theorem units_depthRatio (depth : UInt8) : (depthRatio depth).units = ratioUnits depth := by
  have hdepth := depth.toNat_lt
  have hproduct : (depth.toUInt64 * centRatio).toNat = depth.toNat * 2410580 := by
    have hcent : centRatio.toNat = 2410580 := rfl
    rw [UInt64.toNat_mul, UInt8.toNat_toUInt64, hcent]
    apply Nat.mod_eq_of_lt
    omega
  have hshift : ((depth.toUInt64 * centRatio) >>> 16).toNat = ratioUnits depth := by
    have hsixteen : (16 : UInt64).toNat % 64 = 16 := rfl
    rw [UInt64.toNat_shiftRight, hproduct, hsixteen, Nat.shiftRight_eq_div_pow, ratioUnits]
  have hle := ratioUnits_le depth
  show ((depth.toUInt64 * centRatio) >>> 16).toUInt32.toNat = _
  rw [UInt64.toNat_toUInt32, hshift]
  apply Nat.mod_eq_of_lt
  omega

/-- The depth is below the whole, so no bit of the product with a period is cut off. -/
theorem units_delta (params : VibratoParams) (base : Fixed) :
    (around params base).delta.units = deltaUnits params base := by
  have hfit : base.units * ratioUnits params.depth / 65536 < 4294967296 := by
    have hbase := base.units_lt
    have hle : base.units * ratioUnits params.depth ≤ base.units * 9379 :=
      Nat.mul_le_mul_left _ (ratioUnits_le params.depth)
    omega
  have hdelta : (around params base).delta.units =
      (base.mul (depthRatio params.depth)).units / params.steps.toNat := UInt32.toNat_div _ _
  rw [hdelta, Fixed.units_mul, units_depthRatio, Nat.mod_eq_of_lt hfit]
  rfl

/-- All steps of half a cycle together are the depth, up to the rounding of the product and
of one step. -/
theorem peak_bounds (params : VibratoParams) (base : Fixed) :
    params.steps.toNat * deltaUnits params base * 65536 ≤
        base.units * ratioUnits params.depth ∧
      base.units * ratioUnits params.depth <
        (params.steps.toNat * deltaUnits params base + params.steps.toNat + 1) * 65536 := by
  have hpos := params.steps_pos
  have hsplit := Nat.div_add_mod (base.units * ratioUnits params.depth / 65536) params.steps.toNat
  have hrest := Nat.mod_lt (base.units * ratioUnits params.depth / 65536) hpos
  change params.steps.toNat * deltaUnits params base + _ = _ at hsplit
  omega

/-! ## Places of a cycle -/

/-- How many steps the period is away from where the cycle began. -/
def stepsOut (steps place : Nat) : Nat := min place (2 * steps - place)

theorem stepsOut_zero (steps : Nat) : stepsOut steps 0 = 0 := Nat.zero_min _

theorem stepsOut_le (steps place : Nat) : stepsOut steps place ≤ steps := by
  simp only [stepsOut]
  omega

theorem stepsOut_rise {steps place : Nat} (h : place < steps) :
    stepsOut steps (place + 1) = stepsOut steps place + 1 := by
  simp only [stepsOut]
  omega

theorem stepsOut_fall {steps place : Nat} (hle : steps ≤ place) (hlt : place + 1 < 2 * steps) :
    stepsOut steps place = stepsOut steps (place + 1) + 1 := by
  simp only [stepsOut]
  omega

theorem stepsOut_pos {steps place : Nat} (hne : place ≠ 0) (hlt : place < 2 * steps) :
    1 ≤ stepsOut steps place := by
  simp only [stepsOut]
  omega

/-! ## Runs -/

/-- The period and the vibrato after some ticks. Each tick is given the period that the one
before it returned. -/
def ticks (v : Vibrato) (period : Fixed) : Nat → Except Fault (Fixed × Vibrato)
  | 0 => .ok (period, v)
  | k + 1 => do
      let (period, v) ← ticks v period k
      v.step period

/-- The period at which the cycle of a tick begins: the first cycle begins where the voice
is, every other one at the base. -/
def origin (steps : Nat) (base start : Fixed) (k : Nat) : Fixed :=
  if k < 2 * steps then start else base

/-- The vibrato stands where `k` ticks bring it, and the period is as many steps off the
origin of the cycle. -/
structure InCycle (params : VibratoParams) (base start : Fixed) (k : Nat) (period : Fixed)
    (v : Vibrato) : Prop where
  place : v.At params.steps.toNat (k % (2 * params.steps.toNat))
  delta_eq : v.delta.units = deltaUnits params base
  base_eq : v.base = base
  period_eq : period.units = (origin params.steps.toNat base start k).units +
    deltaUnits params base * stepsOut params.steps.toNat (k % (2 * params.steps.toNat))

section Run

variable {params : VibratoParams} {base start period : Fixed} {v : Vibrato} {k : Nat}

theorem inCycle_around (params : VibratoParams) (base start : Fixed) :
    InCycle params base start 0 start (around params base) := by
  have hpos := params.steps_pos
  refine ⟨?_, units_delta params base, rfl, ?_⟩
  · rw [Nat.zero_mod]
    exact at_around params base
  · rw [Nat.zero_mod, stepsOut_zero, origin, if_pos (by omega)]
    omega

/-- Only the last tick of a cycle leads into one with another origin. -/
theorem origin_succ {steps : Nat} (base start : Fixed) (h : k % (2 * steps) + 1 ≠ 2 * steps) :
    origin steps base start (k + 1) = origin steps base start k := by
  simp only [origin]
  by_cases hk : k < 2 * steps
  · rw [Nat.mod_eq_of_lt hk] at h
    rw [if_pos hk, if_pos (by omega)]
  · rw [if_neg hk, if_neg (by omega)]

/-- The last tick of a cycle leads into one that begins at the base. -/
theorem origin_succ_of_last {steps : Nat} (base start : Fixed)
    (h : k % (2 * steps) + 1 = 2 * steps) : origin steps base start (k + 1) = base := by
  have hle := Nat.mod_le k (2 * steps)
  rw [origin, if_neg (by omega)]

/-- With room for half a cycle above both periods at which cycles begin, a tick succeeds and
leads to the next place. -/
theorem InCycle.step (h : InCycle params base start k period v)
    (hbase : base.units + params.steps.toNat * deltaUnits params base < 4294967296)
    (hstart : start.units + params.steps.toNat * deltaUnits params base < 4294967296) :
    ∃ period' v', v.step period = .ok (period', v') ∧
      InCycle params base start (k + 1) period' v' := by
  have hroom : (origin params.steps.toNat base start k).units +
      params.steps.toNat * deltaUnits params base < 4294967296 := by
    simp only [origin]
    split <;> assumption
  have hmod : (k % (2 * params.steps.toNat) + 1) % (2 * params.steps.toNat) =
      (k + 1) % (2 * params.steps.toNat) := Nat.mod_add_mod k _ 1
  rcases h.place.step_cases period with
    ⟨hrise, hover, -⟩ | ⟨-, period', time, rising, hok, hat, hswings⟩
  · -- a step up stays below the peak, and there is room for that
    exfalso
    have hle : deltaUnits params base * stepsOut params.steps.toNat
        (k % (2 * params.steps.toNat) + 1) ≤ params.steps.toNat * deltaUnits params base := by
      rw [Nat.mul_comm]
      exact Nat.mul_le_mul_right _ (stepsOut_le _ _)
    rw [stepsOut_rise hrise, Nat.mul_add, Nat.mul_one] at hle
    simp only [Fixed.AddOverflows, h.period_eq, h.delta_eq] at hover
    omega
  · rw [hmod] at hat
    refine ⟨period', { v with time, rising }, hok, hat, h.delta_eq, h.base_eq, ?_⟩
    rcases hswings with ⟨hrise, hperiod⟩ | ⟨hfall, hinner, rfl⟩ | ⟨hlast, rfl⟩
    · have hplace := h.place.place_lt
      rw [origin_succ base start (by omega), ← hmod, Nat.mod_eq_of_lt (by omega),
        stepsOut_rise hrise, Nat.mul_add, Nat.mul_one, ← Nat.add_assoc, ← h.period_eq, hperiod,
        h.delta_eq]
    · -- there is a step left above the origin, so nothing is cut off
      have hperiod := h.period_eq
      rw [stepsOut_fall hfall hinner, Nat.mul_add, Nat.mul_one] at hperiod
      rw [origin_succ base start (by omega), ← hmod, Nat.mod_eq_of_lt hinner, Fixed.units_monus,
        h.delta_eq, hperiod]
      omega
    · -- the base is put back, wherever the cycle began
      rw [origin_succ_of_last base start hlast, ← hmod, hlast, Nat.mod_self, stepsOut_zero,
        h.base_eq]
      omega

theorem inCycle_ticks
    (hbase : base.units + params.steps.toNat * deltaUnits params base < 4294967296)
    (hstart : start.units + params.steps.toNat * deltaUnits params base < 4294967296) (k : Nat) :
    ∃ period v, (around params base).ticks start k = .ok (period, v) ∧
      InCycle params base start k period v := by
  induction k with
  | zero => exact ⟨start, around params base, rfl, inCycle_around params base start⟩
  | succ k ih =>
    obtain ⟨period, v, hticks, hcycle⟩ := ih
    obtain ⟨period', v', hstep, hcycle'⟩ := hcycle.step hbase hstart
    refine ⟨period', v', ?_, hcycle'⟩
    simp only [ticks, hticks]
    exact hstep

theorem InCycle.units_first (h : InCycle params base start k period v)
    (hk : k < 2 * params.steps.toNat) :
    period.units = start.units +
      deltaUnits params base * min k (2 * params.steps.toNat - k) := by
  have hperiod := h.period_eq
  rw [Nat.mod_eq_of_lt hk, origin, if_pos hk] at hperiod
  exact hperiod

theorem InCycle.units_later (h : InCycle params base start k period v)
    (hk : 2 * params.steps.toNat ≤ k) :
    period.units = base.units + deltaUnits params base *
      stepsOut params.steps.toNat (k % (2 * params.steps.toNat)) := by
  have hperiod := h.period_eq
  rw [origin, if_neg (by omega)] at hperiod
  exact hperiod

/-- After the first cycle the period is the base at the end of each cycle, and in between
only if the vibrato does not move it at all. -/
theorem InCycle.eq_base_iff (h : InCycle params base start k period v)
    (hk : 2 * params.steps.toNat ≤ k) :
    period = base ↔ 2 * params.steps.toNat ∣ k ∨ deltaUnits params base = 0 := by
  have hunits := h.units_later hk
  rw [← Fixed.units_inj, hunits, Nat.dvd_iff_mod_eq_zero]
  constructor
  · intro heq
    have hproduct : deltaUnits params base *
        stepsOut params.steps.toNat (k % (2 * params.steps.toNat)) = 0 := by omega
    rcases Nat.mul_eq_zero.1 hproduct with hdelta | hout
    · exact Or.inr hdelta
    · refine Or.inl (Decidable.byContradiction fun hne => ?_)
      have hpos := stepsOut_pos hne h.place.place_lt
      omega
  · rintro (hzero | hdelta)
    · rw [hzero, stepsOut_zero, Nat.mul_zero, Nat.add_zero]
    · rw [hdelta, Nat.zero_mul, Nat.add_zero]

/-- A vibrato that is falling has a step above the origin left to take off. -/
theorem InCycle.delta_le (h : InCycle params base start k period v) (hfalls : v.rising = false) :
    v.delta ≤ period := by
  have hplace : params.steps.toNat ≤ k % (2 * params.steps.toNat) := by
    have hrising := h.place.rising_eq
    rw [hfalls] at hrising
    simpa using hrising
  have hpos := params.steps_pos
  have hout : 1 ≤ stepsOut params.steps.toNat (k % (2 * params.steps.toNat)) :=
    stepsOut_pos (by omega) h.place.place_lt
  have hle := Nat.mul_le_mul_left (deltaUnits params base) hout
  rw [Fixed.le_iff_units, h.delta_eq, h.period_eq]
  omega

end Run

/-- A vibrato with any parameters around a base period, on a voice that starts at any
period, with room for half a cycle above both. In the first cycle the period goes up from
the start and down again, and in every later cycle from the base; it is back at the base at
the end of each cycle and never below it in between. Nothing overflows and no step down is
cut short. The peak is the depth of the vibrato, rounded by less than one unit for each step
and one more. -/
theorem period_follows_cycle (params : VibratoParams) (base start : Fixed)
    (hbase : base.units + params.steps.toNat * deltaUnits params base < 4294967296)
    (hstart : start.units + params.steps.toNat * deltaUnits params base < 4294967296) :
    let s := params.steps.toNat
    let delta := deltaUnits params base
    let depthRatio : ℚ := ((params.depth.toNat * 2410580 / 65536 : ℕ) : ℚ) / 65536
    ∃ v, configured params base = .ok v ∧ v.delta.units = delta ∧
      (∀ k, ∃ period u, v.ticks start k = .ok (period, u) ∧
        (k < 2 * s → period.units = start.units + delta * min k (2 * s - k)) ∧
        (2 * s ≤ k →
          period.units = base.units + delta * min (k % (2 * s)) (2 * s - k % (2 * s)) ∧
          base ≤ period ∧ (period = base ↔ 2 * s ∣ k ∨ delta = 0)) ∧
        (u.rising = false → u.delta ≤ period)) ∧
      (s * delta : ℚ) ≤ base.units * depthRatio ∧
      base.units * depthRatio - (s + 1) < (s * delta : ℚ) := by
  intro s delta depthRatio
  refine ⟨around params base, configured_eq params base, units_delta params base, ?_, ?_⟩
  · intro k
    obtain ⟨period, u, hticks, hcycle⟩ := inCycle_ticks hbase hstart k
    refine ⟨period, u, hticks, hcycle.units_first, ?_, hcycle.delta_le⟩
    intro hk
    have hunits := hcycle.units_later hk
    refine ⟨hunits, ?_, hcycle.eq_base_iff hk⟩
    rw [Fixed.le_iff_units, hunits]
    exact Nat.le_add_right _ _
  · -- both bounds hold of the numerators over 65536
    obtain ⟨hle, hlt⟩ := peak_bounds params base
    have hdepth : base.units * depthRatio =
        ((base.units * ratioUnits params.depth : ℕ) : ℚ) / 65536 := by
      rw [Nat.cast_mul, mul_div_assoc]
      rfl
    have hle' : (s * delta * 65536 : ℚ) ≤ ((base.units * ratioUnits params.depth : ℕ) : ℚ) := by
      exact_mod_cast hle
    have hlt' : ((base.units * ratioUnits params.depth : ℕ) : ℚ) <
        (s * delta + s + 1) * 65536 := by
      exact_mod_cast hlt
    rw [hdepth]
    constructor
    · rw [le_div_iff₀ (by norm_num)]
      exact hle'
    · rw [sub_lt_iff_lt_add, div_lt_iff₀ (by norm_num)]
      linarith

/-- A vibrato of two steps up and two down, on a voice that starts below the base. -/
theorem period_follows_cycle_from_off_pitch :
    let params : VibratoParams := ⟨126, 100⟩
    let base : Fixed := ⟨6553600⟩
    let start : Fixed := ⟨6000000⟩
    base.units + params.steps.toNat * deltaUnits params base < 4294967296 ∧
      start.units + params.steps.toNat * deltaUnits params base < 4294967296 ∧
      deltaUnits params base = 183900 ∧
      ∃ v, configured params base = .ok v ∧
        (∃ period u, v.ticks start 3 = .ok (period, u) ∧ period.units = 6183900) ∧
        (∃ period u, v.ticks start 4 = .ok (period, u) ∧ period = base) ∧
        (∃ period u, v.ticks start 1002 = .ok (period, u) ∧ period.units = 6921400) := by
  intro params base start
  have hbase : base.units + params.steps.toNat * deltaUnits params base < 4294967296 := by
    decide +kernel
  have hstart : start.units + params.steps.toNat * deltaUnits params base < 4294967296 := by
    decide +kernel
  obtain ⟨v, hv, -, hticks, -⟩ := period_follows_cycle params base start hbase hstart
  refine ⟨hbase, hstart, by decide +kernel, v, hv, ?_, ?_, ?_⟩
  · obtain ⟨period, u, hperiod, hfirst, -⟩ := hticks 3
    exact ⟨period, u, hperiod, (hfirst (by decide +kernel)).trans (by decide +kernel)⟩
  · obtain ⟨period, u, hperiod, -, hlater, -⟩ := hticks 4
    exact ⟨period, u, hperiod, (hlater (by decide +kernel)).2.2.2 (Or.inl (by decide +kernel))⟩
  · obtain ⟨period, u, hperiod, -, hlater, -⟩ := hticks 1002
    exact ⟨period, u, hperiod, (hlater (by decide +kernel)).1.trans (by decide +kernel)⟩

end Chiptune.Vibrato
