import Chiptune.Proofs.Levels
import Chiptune.Proofs.Overflow

/-!
# The limits of the switching voices

The level of a note is 32 times its velocity, and an envelope only ever scales it
down. In every run the two squares and the noise therefore stay within 8160 of
zero (`limited_move`, `withinLimit_contribution`).

The scaled level is a product of fixed-point numbers, rounded; `toNat_toInteger`
says which integer the rounding gives.
-/

set_option autoImplicit false

namespace Chiptune

/-! ## Rounding to an integer -/

namespace Fixed

theorem units_ofInteger (v : UInt16) : (ofInteger v).units = v.toNat * 65536 := by
  have hlt := v.toNat_lt
  have hshift : (v.toUInt32 <<< 16).toNat = v.toNat <<< 16 % 4294967296 := by
    rw [UInt32.toNat_shiftLeft, UInt16.toNat_toUInt32]
    rfl
  refine hshift.trans ?_
  rw [Nat.shiftLeft_eq, Nat.mod_eq_of_lt (by omega)]

theorem units_fract (a : Fixed) : a.fract.units = a.units % 65536 := by
  have hand : (a.raw &&& 0xFFFF).toNat = a.raw.toNat &&& (2 ^ 16 - 1) := UInt32.toNat_and _ _
  exact hand.trans (Nat.and_two_pow_sub_one_eq_mod _ 16)

theorem units_floor (a : Fixed) : a.floor.units = a.units / 65536 * 65536 := by
  have hlt := a.units_lt
  have hand : a.floor.units = a.units &&& 0xFFFF0000 := UInt32.toNat_and _ _
  -- the mask keeps all of the integer bits and none of the fraction
  have hinteger : (a.units &&& 0xFFFF0000) / 2 ^ 16 = a.units / 2 ^ 16 &&& (2 ^ 16 - 1) :=
    Nat.and_div_two_pow
  have hfraction : (a.units &&& 0xFFFF0000) % 2 ^ 16 = a.units % 2 ^ 16 &&& 0 :=
    Nat.and_mod_two_pow
  rw [Nat.and_two_pow_sub_one_eq_mod] at hinteger
  rw [Nat.and_zero] at hfraction
  omega

theorem toNat_trunc (a : Fixed) : a.trunc.toNat = a.units / 65536 := by
  have hlt := a.units_lt
  have hshift : (a.raw >>> 16).toNat = a.units / 65536 := by
    rw [UInt32.toNat_shiftRight, Nat.shiftRight_eq_div_pow]
    rfl
  simp only [trunc, UInt32.toNat_toUInt16, hshift]
  omega

/-- Rounding goes to the nearest integer, and halves up. Above the top integer it
starts over at zero. -/
theorem toNat_toInteger (a : Fixed) : a.toInteger.toNat = (a.units + 32768) / 65536 % 65536 := by
  have hlt := a.units_lt
  have hfract := a.units_fract
  have hfloor := a.units_floor
  simp only [toInteger, toNat_trunc, round]
  by_cases hhalf : a.fract < half
  · have hlow : a.fract.units < 32768 := lt_iff_units.1 hhalf
    rw [if_pos hhalf, hfloor]
    omega
  · -- from a half on the integer part goes up, and the top one wraps
    have hhigh : half.units ≤ a.fract.units := Nat.not_lt.1 (mt lt_iff_units.2 hhalf)
    have hunits : half.units = 32768 := rfl
    have hup : a.stepUp.units = (a.floor.units + 65536) % 4294967296 := UInt32.toNat_add _ _
    rw [if_neg hhalf, hup, hfloor]
    omega

/-- Scaling by at most one does not raise an integer. -/
theorem toNat_toInteger_mul_le (v : UInt16) {factor : Fixed} (h : factor.units ≤ 65536) :
    ((ofInteger v).mul factor).toInteger.toNat ≤ v.toNat := by
  have hlt := v.toNat_lt
  have hproduct : ((ofInteger v).mul factor).units ≤ v.toNat * 65536 := by
    calc ((ofInteger v).mul factor).units
        ≤ (ofInteger v).units * factor.units / 65536 := units_mul_le _ _
      _ ≤ (ofInteger v).units * 65536 / 65536 := Nat.div_le_div_right (Nat.mul_le_mul_left _ h)
      _ = v.toNat * 65536 := by rw [Nat.mul_div_cancel _ (by decide), units_ofInteger]
  rw [toNat_toInteger]
  omega

end Fixed

/-! ## Limited levels -/

/-- The level is within the largest that a velocity gives. -/
def WithinLimit (x : Int16) : Prop := -8160 ≤ x.toInt ∧ x.toInt ≤ 8160

instance (x : Int16) : Decidable (WithinLimit x) := inferInstanceAs (Decidable (_ ∧ _))

theorem withinLimit_zero : WithinLimit 0 := by decide

theorem WithinLimit.neg {x : Int16} (h : WithinLimit x) : WithinLimit (-x) := by
  obtain ⟨hge, hle⟩ := h
  have hneg := toInt_neg_of_ne (x := x) (by omega)
  unfold WithinLimit
  omega

namespace Amplitude

theorem withinLimit_levelFor (velocity : UInt8) : WithinLimit (levelFor velocity) := by
  have hlt := velocity.toNat_lt
  unfold WithinLimit
  rw [toInt_levelFor]
  omega

/-- All levels are within the largest, and the envelope scales them down. -/
structure Limited (a : Amplitude) : Prop where
  bounded : a.envelope.Bounded
  limit : WithinLimit a.limit
  high : WithinLimit a.high
  low : WithinLimit a.low

theorem limited_silent : silent.Limited :=
  ⟨Envelope.bounded_fresh, withinLimit_zero, withinLimit_zero, withinLimit_zero⟩

/-- A scaled level lies between zero and the magnitude of the limit. -/
theorem toInt_scaledLevel_le {limit : Int16} {factor : Fixed} (hlimit : WithinLimit limit)
    (hfactor : factor.units ≤ 65536) :
    0 ≤ (scaledLevel limit factor).toInt ∧
      (scaledLevel limit factor).toInt ≤ limit.toInt.natAbs := by
  obtain ⟨hge, hle⟩ := hlimit
  have hword : limit.toInt.natAbs.toUInt16.toNat = limit.toInt.natAbs := by
    rw [Nat.toUInt16_eq, UInt16.toNat_ofNat']
    exact Nat.mod_eq_of_lt (by omega)
  have hscaled := Fixed.toNat_toInteger_mul_le limit.toInt.natAbs.toUInt16 hfactor
  rw [hword] at hscaled
  simp only [scaledLevel]
  rw [toInt_toInt16 (by omega)]
  omega

theorem withinLimit_scaledLevel {limit : Int16} {factor : Fixed} (hlimit : WithinLimit limit)
    (hfactor : factor.units ≤ 65536) : WithinLimit (scaledLevel limit factor) := by
  have hscaled := toInt_scaledLevel_le hlimit hfactor
  obtain ⟨hge, hle⟩ := hlimit
  unfold WithinLimit
  omega

theorem Limited.begun {a : Amplitude} (h : a.Limited) (velocity : UInt8) :
    (a.begun velocity).Limited := by
  have hlevel := withinLimit_levelFor velocity
  unfold Amplitude.begun
  split
  · exact ⟨h.bounded.trigger, hlevel, withinLimit_zero, withinLimit_zero⟩
  · exact ⟨h.bounded, hlevel, hlevel, hlevel.neg⟩

theorem Limited.stop {a : Amplitude} (h : a.Limited) : a.stop.Limited := by
  have hreleased : a.envelope.release.Bounded :=
    ⟨h.bounded.factor_le, h.bounded.attack_le, h.bounded.sustain_le⟩
  unfold Amplitude.stop
  split
  · exact ⟨hreleased, h.limit, h.high, h.low⟩
  · exact ⟨h.bounded, h.limit, withinLimit_zero, withinLimit_zero⟩

theorem Limited.refresh {a : Amplitude} (h : a.Limited) : a.refresh.Limited := by
  have hbounded := bounded_refresh h.bounded
  rcases a.refresh_cases with ⟨-, hsame⟩ | ⟨-, htaken⟩
  · rw [hsame]
    exact h
  · have hscaled := withinLimit_scaledLevel h.limit h.bounded.factor_le
    rw [htaken] at hbounded ⊢
    exact ⟨hbounded, h.limit, hscaled, hscaled.neg⟩

theorem Limited.withEnvelope {a : Amplitude} (h : a.Limited) {envelope : Envelope}
    (hbounded : envelope.Bounded) : Limited { a with envelope } :=
  ⟨hbounded, h.limit, h.high, h.low⟩

theorem Limited.setEnvelope {a : Amplitude} (h : a.Limited) (enabled : Bool) :
    (a.setEnvelope enabled).Limited :=
  h.withEnvelope ⟨h.bounded.factor_le, h.bounded.attack_le, h.bounded.sustain_le⟩

theorem Limited.modulate {a a' : Amplitude} (h : a.Limited) (hok : a.modulate = .ok a') :
    a'.Limited := by
  obtain ⟨envelope, hok', hbounded⟩ := modulate_of_bounded h.bounded
  obtain rfl := Except.ok.inj (hok'.symm.trans hok)
  exact h.withEnvelope hbounded

/-- The levels after an action. -/
def performed (a : Amplitude) : Action → Amplitude
  | .noteOn _ velocity => a.begun velocity
  | .noteOff => a.stop
  | .configureEnvelope params => a.withParams params
  | .envelopeOn => a.setEnvelope true
  | .envelopeOff => a.setEnvelope false
  | .setDuty _ | .configureVibrato _ | .vibratoOn | .vibratoOff => a

theorem Limited.performed {a : Amplitude} (h : a.Limited) (action : Action) :
    (a.performed action).Limited := by
  cases action with
  | noteOn note velocity => exact h.begun velocity
  | noteOff => exact h.stop
  | configureEnvelope params => exact h.withEnvelope (h.bounded.withParams params)
  | envelopeOn => exact h.setEnvelope true
  | envelopeOff => exact h.setEnvelope false
  | setDuty duty => exact h
  | configureVibrato params => exact h
  | vibratoOn => exact h
  | vibratoOff => exact h

end Amplitude

theorem Square.amplitude_performed (q : Square) (t : Tuning) (action : Action) :
    (q.performed t action).amplitude = q.amplitude.performed action := by
  cases action <;> rfl

theorem Noise.amplitude_performed (n : Noise) (action : Action) :
    (n.performed action).amplitude = n.amplitude.performed action := by
  cases action <;> rfl

/-! ## Limited parts -/

namespace Part

variable {ρ : Type}

/-- The levels of a switching voice are limited. -/
def Limited : Part ρ → Prop
  | square q => q.amplitude.Limited
  | triangle _ => True
  | noise n _ => n.amplitude.Limited

theorem limited_tuned (t : Tuning) (source : ρ) (c : Channel) :
    ((Synth.tuned t source).part c).Limited := by
  cases c with
  | squareA => exact Amplitude.limited_silent
  | squareB => exact Amplitude.limited_silent
  | triangle => trivial
  | noise => exact Amplitude.limited_silent

theorem Limited.performed {p : Part ρ} (h : p.Limited) (t : Tuning) (action : Action) :
    (p.performed t action).Limited := by
  cases p with
  | triangle r => trivial
  | square q =>
    have hq : q.amplitude.Limited := h
    simp only [Part.performed, Part.Limited, Square.amplitude_performed]
    exact hq.performed action
  | noise n source =>
    have hn : n.amplitude.Limited := h
    simp only [Part.performed, Part.Limited, Noise.amplitude_performed]
    exact hn.performed action

theorem Limited.modulate {p p' : Part ρ} (h : p.Limited) (hok : p.modulate = .ok p') :
    p'.Limited := by
  cases p with
  | triangle r =>
    cases hok
    trivial
  | square q =>
    obtain ⟨q₁, q', rfl, hvibrato, henvelope⟩ := exists_of_modulate_square hok
    exact Amplitude.Limited.modulate h (Square.amplitude_modulate hvibrato henvelope)
  | noise n source =>
    obtain ⟨n', rfl, henvelope⟩ := exists_of_modulate_noise hok
    exact Amplitude.Limited.modulate h (Noise.amplitude_modulate henvelope)

theorem Limited.output {n : Noise} (h : n.amplitude.Limited) : WithinLimit n.output := by
  simp only [Noise.output]
  split
  · exact h.high
  · exact h.low

variable [BitSource ρ]

theorem Limited.next {p p' : Part ρ} {x : Int16} (h : p.Limited) (hok : p.next = .ok (x, p')) :
    p'.Limited ∧ ((∀ r, p ≠ triangle r) → WithinLimit x) := by
  cases p with
  | triangle r =>
    obtain ⟨r', rfl, -⟩ := exists_of_next_triangle hok
    exact ⟨trivial, fun hno => absurd rfl (hno r)⟩
  | square q =>
    have hq : q.amplitude.Limited := h
    obtain ⟨q', rfl, hnext⟩ := exists_of_next_square hok
    rcases q.next_cases with ⟨-, hfault⟩ | ⟨-, hnext'⟩ | ⟨-, time, -, ⟨-, hnext'⟩ |
      ⟨-, -, hnext'⟩ | ⟨-, -, rest, -, hnext'⟩⟩
    · rw [hnext] at hfault
      cases hfault
    all_goals
      rw [hnext] at hnext'
      cases hnext'
    · exact ⟨hq, fun _ => hq.low⟩
    · exact ⟨hq, fun _ => hq.low⟩
    · exact ⟨hq, fun _ => hq.high⟩
    · exact ⟨hq.refresh, fun _ => hq.high⟩
  | noise n source =>
    have hn : n.amplitude.Limited := h
    obtain ⟨n', source', rfl, hnext⟩ := exists_of_next_noise hok
    rcases n.next_cases source with ⟨-, hnext'⟩ | ⟨-, hnext'⟩
    all_goals
      rw [hnext] at hnext'
      cases hnext'
    · have hreloaded : (n.reloaded (BitSource.draw source).1).amplitude.Limited := hn.refresh
      exact ⟨hreloaded, fun _ => Limited.output hreloaded⟩
    · exact ⟨hn, fun _ => Limited.output hn⟩

end Part

namespace Synth

variable {ρ : Type} [BitSource ρ]

/-- Limited levels stay limited. -/
theorem limited_move {s s' : Synth ρ} {m : Move} (c : Channel) (h : (s.part c).Limited)
    (hok : s.move m = .ok s') : (s'.part c).Limited := by
  rcases move_part hok c with ⟨-, x, hnext⟩ | ⟨-, -, hmodulate⟩ | ⟨-, action, -, hpart⟩ | ⟨-, hpart⟩
  · exact (h.next hnext).1
  · exact h.modulate hmodulate
  · rw [hpart]
    exact h.performed s.tuning action
  · rw [hpart]
    exact h

/-- What a switching voice adds to a sample of a run is limited. -/
theorem withinLimit_contribution {t : Tuning} {source : ρ} {moves : List Move} {u : Synth ρ}
    (hu : u ∈ sampled moves (tuned t source)) {c : Channel} (hc : c ≠ .triangle) {x : Int16}
    (hx : u.contribution c = .ok x) : WithinLimit x := by
  have hlimited : (u.part c).Limited := sampled_keeps (P := fun u => (u.part c).Limited) moves
    (fun s s' m _ h hok => limited_move c h hok) (Part.limited_tuned t source c) u hu
  obtain ⟨p, hnext⟩ := contribution_eq_ok.1 hx
  refine (hlimited.next hnext).2 fun r hr => ?_
  cases c with
  | triangle => exact hc rfl
  | squareA => cases hr
  | squareB => cases hr
  | noise => cases hr

end Synth

end Chiptune
