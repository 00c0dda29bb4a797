import Chiptune.Proofs.Headroom
import Mathlib.Algebra.Order.Round
import Mathlib.Data.Rat.Floor
import Mathlib.Tactic.FieldSimp

/-!
# The steps of the ramps

Each ramp of the triangle is to cover the swing of the velocity over its span of the cycle.
The step for that is the levels per sample, rounded to the nearest integer: `nearestStep`.

The quotient is formed in a wide word, kept in a narrow one and rounded there, and only then
cut at the largest sample. The narrow word drops multiples of 65536 levels, and the rounding
at its top wraps. So a step is the nearest one modulo 65536, cut at 32767 (`toInt_rampStep`),
and a steep ramp may get any step at all (`short_ramp_loses_levels`). A span of more units than
the swing has levels is long enough for nothing to be dropped (`nearestStep_lt`).

While a note sounds, its ramps are those of its velocity and of the phase, through samples
and through new duties (`Sounding.ramped`).
-/

set_option autoImplicit false

namespace Chiptune

namespace Triangle

/-! ## Nearest steps -/

/-- The levels per sample that cover a swing over a span, given in parts of 65536 of a sample,
rounded to the nearest integer, a half going up. Without a span there is no step. -/
def nearestStep (swing span : Nat) : Int :=
  if span = 0 then 0 else round ((swing * 65536 : ℚ) / span)

theorem nearestStep_zero (swing : Nat) : nearestStep swing 0 = 0 := if_pos rfl

theorem nearestStep_of_pos (swing : Nat) {span : Nat} (hspan : 0 < span) :
    nearestStep swing span = ((2 * (swing * 65536) + span) / (2 * span) : Nat) := by
  have hne : (span : ℚ) ≠ 0 := by exact_mod_cast hspan.ne'
  -- a half more, over the common denominator
  have hhalf : (swing * 65536 : ℚ) / span + 1 / 2 =
      ((2 * (swing * 65536) + span : Nat) : ℚ) / ((2 * span : Nat) : ℚ) := by
    push_cast
    field_simp
  rw [nearestStep, if_neg hspan.ne', round_eq, hhalf, Rat.floor_natCast_div_natCast,
    Int.natCast_div]

theorem nearestStep_nonneg (swing span : Nat) : 0 ≤ nearestStep swing span := by
  rcases Nat.eq_zero_or_pos span with rfl | hspan
  · rw [nearestStep_zero]
  · rw [nearestStep_of_pos swing hspan]
    exact Int.natCast_nonneg _

/-- Over a span of more units than there are levels the step has sixteen bits. -/
theorem nearestStep_lt {swing span : Nat} (hswing : swing ≤ 8160) (hspan : swing < span) :
    nearestStep swing span < 65536 := by
  rw [nearestStep_of_pos swing (by omega)]
  have hlt : (2 * (swing * 65536) + span) / (2 * span) < 65536 := by
    apply Nat.div_lt_of_lt_mul
    omega
  exact_mod_cast hlt

/-- Sixteen bits of a step, cut at the largest sample, are the step so cut exactly when no
higher bits are dropped or the cut takes all of the lower ones. -/
theorem cut_eq_iff {n : Int} (hn : 0 ≤ n) :
    min (n % 65536) 32767 = min n 32767 ↔ n < 65536 ∨ 32767 ≤ n % 65536 := by
  omega

/-! ## Steps as they are computed -/

/-- Rounding a quotient that was cut to parts of 65536 is rounding the exact one. -/
theorem round_cut_quotient (a : Nat) {b : Nat} (hb : 0 < b) :
    (a * 65536 / b + 32768) / 65536 = (2 * a + b) / (2 * b) := by
  have hnum : a * 65536 + 32768 * b = (2 * a + b) * 32768 := by omega
  have hden : b * 65536 = 2 * b * 32768 := by rw [Nat.mul_comm 2 b, Nat.mul_assoc]
  calc (a * 65536 / b + 32768) / 65536
      = (a * 65536 + 32768 * b) / (b * 65536) := by
        rw [← Nat.add_mul_div_right _ _ hb, Nat.div_div_eq_div_mul]
    _ = (2 * a + b) * 32768 / (2 * b * 32768) := by rw [hnum, hden]
    _ = (2 * a + b) / (2 * b) := Nat.mul_div_mul_right _ _ (by decide)

/-- A step is the nearest one, cut to sixteen bits and then at the largest sample. -/
theorem toInt_rampStep (swing : UInt16) (span : Fixed) :
    (rampStep swing span).toInt = min (nearestStep swing.toNat span.units % 65536) 32767 := by
  by_cases hzero : span = Fixed.zero
  · subst hzero
    rw [rampStep_zero, Fixed.units_zero, nearestStep_zero]
    rfl
  · have hspan := Fixed.units_pos hzero
    obtain ⟨step, hstep, hunits⟩ := Fixed.div?_of_ne_zero (Fixed.ofInteger swing) hzero
    have hvalue : rampStep swing span = Int16.ofNat (min step.toInteger.toNat 32767) := by
      simp only [rampStep, hstep]
    -- what the narrow word drops is a multiple of 65536 levels
    have hround : step.toInteger.toNat =
        (swing.toNat * 65536 * 65536 / span.units + 32768) / 65536 % 65536 := by
      rw [step.toNat_toInteger, hunits, Fixed.units_ofInteger]
      omega
    rw [round_cut_quotient _ hspan] at hround
    rw [hvalue, toInt_ofNat_min, hround, nearestStep_of_pos _ hspan]
    omega

/-! ## Sounding notes -/

/-- The triangles of a note with a velocity: from its start on, until it ends or another note
starts. -/
inductive Sounding (velocity : UInt8) : Triangle → Prop
  | noteOn {r r' : Triangle} {t : Tuning} {note : UInt8} :
      r.noteOn t note velocity = .ok r' → Sounding velocity r'
  | perform {r r' : Triangle} {t : Tuning} {action : Action} :
      Sounding velocity r → action ≠ .noteOff → (∀ note v, action ≠ .noteOn note v) →
        r.perform t action = .ok r' → Sounding velocity r'
  | next {r r' : Triangle} {x : Int16} :
      Sounding velocity r → r.next = .ok (x, r') → Sounding velocity r'

/-- The ramps are those of a velocity over the parts of the cycle. -/
structure Ramped (velocity : UInt8) (r : Triangle) : Prop where
  velocity_eq : r.velocity = velocity
  up_eq : r.up = rampStep (swing velocity) r.phase.edge
  down_eq : r.down = -rampStep (swing velocity) (r.phase.period.monus r.phase.edge)

section Sounding

variable {velocity : UInt8} {r r' : Triangle}

theorem ramped_noteOn (r : Triangle) (t : Tuning) (note velocity : UInt8) :
    ∃ r', r.noteOn t note velocity = .ok r' ∧ Sounding velocity r' ∧ Ramped velocity r' := by
  have hok : r.noteOn t note velocity = .ok (r.performed t (.noteOn note velocity)) :=
    perform_eq r t (.noteOn note velocity)
  exact ⟨_, hok, .noteOn hok, rfl, rfl, rfl⟩

theorem Ramped.performed (h : Ramped velocity r) (t : Tuning) {action : Action}
    (hoff : action ≠ .noteOff) (hon : ∀ note v, action ≠ .noteOn note v) :
    Ramped velocity (r.performed t action) := by
  rcases r.performed_cases t action with ⟨note, v, rfl⟩ | ⟨duty, rfl⟩ | rfl | ⟨flag, hflag⟩
  · exact absurd rfl (hon note v)
  · -- a new duty places the ramps again, from the velocity that was kept
    obtain rfl := h.velocity_eq
    exact ⟨rfl, rfl, rfl⟩
  · exact absurd rfl hoff
  · rw [hflag]
    exact ⟨h.velocity_eq, h.up_eq, h.down_eq⟩

theorem Ramped.next (h : Ramped velocity r) {x : Int16} (hok : r.next = .ok (x, r')) :
    Ramped velocity r' := by
  obtain ⟨hsame, -⟩ := next_eq_ok hok
  refine ⟨hsame.velocity_eq.trans h.velocity_eq, ?_, ?_⟩
  · rw [hsame.up_eq, hsame.edge_eq]
    exact h.up_eq
  · rw [hsame.down_eq, hsame.edge_eq, hsame.period_eq]
    exact h.down_eq

theorem Sounding.ramped (h : Sounding velocity r) : Ramped velocity r := by
  induction h with
  | @noteOn r r' t note hok =>
    obtain ⟨r₁, hok₁, -, hramped⟩ := ramped_noteOn r t note velocity
    rw [hok] at hok₁
    cases hok₁
    exact hramped
  | @perform r r' t action _ hoff hon hok ih =>
    rw [perform_eq] at hok
    cases hok
    exact ih.performed t hoff hon
  | next _ hok ih => exact ih.next hok

/-- A sounding triangle takes every duty, and sounds on. -/
theorem Sounding.setDuty (h : Sounding velocity r) (duty : UInt8) :
    ∃ r', r.setDuty duty = .ok r' ∧ Sounding velocity r' := by
  -- the tuning has no part in a duty
  have hok (t : Tuning) : r.perform t (.setDuty duty) = .ok (r.performed t (.setDuty duty)) :=
    perform_eq r t (.setDuty duty)
  refine ⟨_, hok ⟨0, Vector.replicate 128 Fixed.zero⟩, h.perform ?_ ?_ (hok _)⟩
  · intro hoff
    cases hoff
  · intro note v hon
    cases hon

theorem Ramped.toInt_up (h : Ramped velocity r) :
    r.up.toInt = min (nearestStep (32 * velocity.toNat) r.phase.edge.units % 65536) 32767 := by
  rw [h.up_eq, toInt_rampStep, toNat_swing]

theorem Ramped.toInt_down (h : Ramped velocity r) :
    -r.down.toInt = min (nearestStep (32 * velocity.toNat)
      (r.phase.period.units - r.phase.edge.units) % 65536) 32767 := by
  have hstep := toInt_rampStep (swing velocity) (r.phase.period.monus r.phase.edge)
  rw [toNat_swing, Fixed.units_monus] at hstep
  rw [h.down_eq, toInt_neg_of_ne (by omega), Int.neg_neg, hstep]

end Sounding

/-- For every tuning, note, velocity and duty, from the start of a note on and through every
new duty while it sounds: the step up is the nearest one for the part of the cycle up to the
edge, and the step down for the part behind it, each cut to sixteen bits and then at 32767. So
it is the nearest step cut at 32767 exactly when that step has no more than sixteen bits or the
cut takes the lower ones in any case. It always is when the part of the cycle is longer, in
units, than the swing of the velocity is high. -/
theorem ramps_are_nearest_modulo_word (velocity : UInt8) :
    (∀ (r : Triangle) (t : Tuning) (note : UInt8),
      ∃ r', r.noteOn t note velocity = .ok r' ∧ Sounding velocity r') ∧
    (∀ r, Sounding velocity r →
      ∀ duty, ∃ r', r.setDuty duty = .ok r' ∧ Sounding velocity r') ∧
    let ideal := nearestStep (32 * velocity.toNat)
    (∀ r, Sounding velocity r →
      let edge := r.phase.edge.units
      let rest := r.phase.period.units - r.phase.edge.units
      r.up.toInt = min (ideal edge % 65536) 32767 ∧
      -r.down.toInt = min (ideal rest % 65536) 32767 ∧
      (r.up.toInt = min (ideal edge) 32767 ↔ ideal edge < 65536 ∨ 32767 ≤ ideal edge % 65536) ∧
      (-r.down.toInt = min (ideal rest) 32767 ↔
        ideal rest < 65536 ∨ 32767 ≤ ideal rest % 65536)) ∧
    ideal 0 = 0 ∧ ∀ span, 32 * velocity.toNat < span → ideal span < 65536 := by
  refine ⟨?_, fun r hr => hr.setDuty, ?_, nearestStep_zero _, ?_⟩
  · intro r t note
    obtain ⟨r', hok, hsounding, -⟩ := ramped_noteOn r t note velocity
    exact ⟨r', hok, hsounding⟩
  · intro r hr edge rest
    have hup := hr.ramped.toInt_up
    have hdown := hr.ramped.toInt_down
    refine ⟨hup, hdown, ?_, ?_⟩
    · rw [hup]
      exact cut_eq_iff (nearestStep_nonneg _ _)
    · rw [hdown]
      exact cut_eq_iff (nearestStep_nonneg _ _)
  · intro span hspan
    have hvelocity := velocity.toNat_lt
    exact nearestStep_lt (by omega) hspan

/-- A held note of a hundred samples a cycle whose duty goes from a half to four fifths of
the cycle: the steps are 40 and -160, those of the new parts. -/
theorem ramps_are_nearest_modulo_word_after_duty :
    let t : Tuning := ⟨48000, Vector.replicate 128 ⟨6553600⟩⟩
    ∃ r₀ r, (fresh 128).noteOn t 69 100 = .ok r₀ ∧ r₀.setDuty 204 = .ok r ∧
      r.phase.edge.units = 5242800 ∧ r.phase.period.units = 6553600 ∧
      r.up.toInt = min (nearestStep 3200 5242800) 32767 ∧ r.up.toInt = 40 ∧
      -r.down.toInt = min (nearestStep 3200 1310800) 32767 ∧ r.down.toInt = -160 := by
  intro t
  obtain ⟨hon, hduty, hsteps, -, hlong⟩ := ramps_are_nearest_modulo_word 100
  obtain ⟨r₀, hok₀, hsounding₀⟩ := hon (fresh 128) t 69
  obtain ⟨r, hok, hsounding⟩ := hduty r₀ hsounding₀ 204
  have heval : ((fresh 128).noteOn t 69 100 >>= fun u => u.setDuty 204).toOption.map
      (fun u => (u.phase.edge.units, u.phase.period.units)) = some (5242800, 6553600) := by
    decide +kernel
  rw [hok₀] at heval
  change (r₀.setDuty 204).toOption.map _ = _ at heval
  rw [hok] at heval
  injection heval with hvalues
  obtain ⟨hedge, hperiod⟩ := Prod.mk.inj hvalues
  obtain ⟨-, -, hup, hdown⟩ := hsteps r hsounding
  simp only [hedge, hperiod] at hup hdown
  replace hup : r.up.toInt = min (nearestStep 3200 5242800) 32767 :=
    hup.2 (Or.inl (hlong _ (by decide)))
  replace hdown : -r.down.toInt = min (nearestStep 3200 1310800) 32767 :=
    hdown.2 (Or.inl (hlong _ (by decide)))
  have hnearest : nearestStep 3200 5242800 = 40 :=
    nearestStep_of_pos 3200 (by decide : 0 < 5242800)
  have hnearest' : nearestStep 3200 1310800 = 160 :=
    nearestStep_of_pos 3200 (by decide : 0 < 1310800)
  refine ⟨r₀, r, hok₀, hok, hedge, hperiod, hup, ?_, hdown, ?_⟩
  · rw [hup, hnearest]
    rfl
  · rw [hnearest'] at hdown
    omega

/-- The highest note at 48000 samples per second with a duty of one part: the edge is 983 units
in, and the nearest step of 213342 levels loses three times 65536 of them. -/
theorem short_ramp_loses_levels :
    ∃ r, (fresh 1).noteOn (Tuning.equalTempered 48000) 127 100 = .ok r ∧
      r.phase.edge.units = 983 ∧ nearestStep (32 * 100) r.phase.edge.units = 213342 ∧
      min (nearestStep (32 * 100) r.phase.edge.units) 32767 = 32767 ∧ r.up.toInt = 16734 := by
  have heval : ((fresh 1).noteOn (Tuning.equalTempered 48000) 127 100).toOption.map
      (fun r => (r.phase.edge.units, r.up.toInt)) = some (983, 16734) := by
    decide +kernel
  obtain ⟨r, hok, hr⟩ := exists_ok_of_toOption heval
  obtain ⟨hedge, hup⟩ := Prod.mk.inj hr
  have hnearest : nearestStep (32 * 100) 983 = 213342 :=
    nearestStep_of_pos (32 * 100) (by decide : 0 < 983)
  refine ⟨r, hok, hedge, ?_, ?_, hup⟩
  · rw [hedge, hnearest]
  · rw [hedge, hnearest]
    rfl

end Triangle

end Chiptune
