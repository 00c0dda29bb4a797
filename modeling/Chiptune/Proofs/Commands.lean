import Chiptune.Synth

/-!
# Commands never fault

The operations behind a command are checked, but no operand ever leaves the
range: a duty is at most 255 of 255 parts, a stage lasts at least one tick, a
velocity has eight bits. This module gives each of them its result without a
check (`Phase.edgeAt`, `Vibrato.around`, `Envelope.withParams`,
`Amplitude.begun`, …) and proves that the checked operation returns it. A
command is then a function on synthesizers (`Synth.apply_eq`), and so is a list
of commands (`Synth.applyAll_eq`).

Fixed-point numbers are seen through `Fixed.units`, their raw value in `Nat`.
-/

set_option autoImplicit false

namespace Chiptune

/-! ## Fixed-point numbers in `Nat` -/

namespace Fixed

/-- The number in units of one part in 65536. -/
def units (a : Fixed) : Nat := a.raw.toNat

@[simp] theorem units_zero : zero.units = 0 := rfl

@[simp] theorem units_one : one.units = 65536 := rfl

theorem units_lt (a : Fixed) : a.units < 4294967296 := a.raw.toNat_lt

theorem units_inj {a b : Fixed} : a.units = b.units ↔ a = b :=
  ⟨ext_toNat, fun h => congrArg units h⟩

theorem le_iff_units {a b : Fixed} : a ≤ b ↔ a.units ≤ b.units := le_iff

theorem lt_iff_units {a b : Fixed} : a < b ↔ a.units < b.units := lt_iff

theorem units_pos {a : Fixed} (h : a ≠ zero) : 0 < a.units :=
  Nat.pos_of_ne_zero fun h0 => h (units_inj.1 h0)

/-- The sum does not fit the word. -/
def AddOverflows (a b : Fixed) : Prop := 4294967296 ≤ a.units + b.units

instance (a b : Fixed) : Decidable (a.AddOverflows b) := inferInstanceAs (Decidable (_ ≤ _))

theorem add_of_overflows {a b : Fixed} (h : a.AddOverflows b) :
    a.add b = .error .addOverflow := by
  have hnot : ¬ a.raw.toNat + b.raw.toNat < UInt32.size := Nat.not_lt.2 h
  unfold add Checked.add32
  rw [if_neg hnot]
  rfl

theorem add_of_not_overflows {a b : Fixed} (h : ¬ a.AddOverflows b) :
    ∃ c, a.add b = .ok c ∧ c.units = a.units + b.units := by
  have hfit : a.raw.toNat + b.raw.toNat < UInt32.size := Nat.not_le.1 h
  refine ⟨⟨a.raw + b.raw⟩, ?_, ?_⟩
  · unfold add
    rw [Checked.add32_eq_ok hfit]
    rfl
  · show (a.raw + b.raw).toNat = _
    rw [UInt32.toNat_add]
    exact Nat.mod_eq_of_lt hfit

theorem sub_of_le {a b : Fixed} (h : b.units ≤ a.units) :
    ∃ c, a.sub b = .ok c ∧ c.units = a.units - b.units := by
  have hle : b.raw ≤ a.raw := UInt32.le_iff_toNat_le.2 h
  refine ⟨⟨a.raw - b.raw⟩, ?_, UInt32.toNat_sub_of_le _ _ hle⟩
  unfold sub
  rw [Checked.sub32_eq_ok hle]
  rfl

theorem rem_of_ne_zero (a : Fixed) {b : Fixed} (h : b ≠ zero) :
    ∃ c, a.rem b = .ok c ∧ c.units = a.units % b.units := by
  have hne : b.raw ≠ 0 := fun h0 => h (congrArg Fixed.mk h0)
  refine ⟨⟨a.raw % b.raw⟩, ?_, UInt32.toNat_mod _ _⟩
  unfold rem Checked.rem32
  rw [if_neg hne]
  rfl

theorem times_of_lt {a : Fixed} {n : UInt32} (h : a.units * n.toNat < 4294967296) :
    a.times n = .ok ⟨a.raw * n⟩ ∧ (⟨a.raw * n⟩ : Fixed).units = a.units * n.toNat := by
  have hfit : a.raw.toNat * n.toNat < UInt32.size := h
  constructor
  · unfold times
    rw [Checked.mul32_eq_ok hfit]
    rfl
  · show (a.raw * n).toNat = _
    rw [UInt32.toNat_mul]
    exact Nat.mod_eq_of_lt hfit

theorem divBy_of_ne_zero (a : Fixed) {n : UInt32} (h : n ≠ 0) :
    a.divBy n = .ok ⟨a.raw / n⟩ ∧ (⟨a.raw / n⟩ : Fixed).units = a.units / n.toNat := by
  refine ⟨?_, UInt32.toNat_div _ _⟩
  unfold divBy Checked.div32
  rw [if_neg h]
  rfl

theorem units_monus (a b : Fixed) : (a.monus b).units = a.units - b.units := by
  unfold monus
  split
  · rename_i h
    exact UInt32.toNat_sub_of_le _ _ h
  · rename_i h
    have hlt : a.units < b.units := Nat.not_le.1 fun hle => h (le_iff_units.2 hle)
    rw [units_zero]
    omega

end Fixed

/-! ## Phases -/

namespace Phase

/-- The edge at `duty` 255ths of a period. -/
def edgeAt (period : Fixed) (duty : UInt8) : Fixed := ⟨period.raw / 255 * duty.toUInt32⟩

theorem edge_product_lt (period : Fixed) (duty : UInt8) :
    (⟨period.raw / 255⟩ : Fixed).units * duty.toUInt32.toNat < 4294967296 := by
  have hperiod := period.units_lt
  have hduty := duty.toNat_lt
  have hdiv : (⟨period.raw / 255⟩ : Fixed).units = period.units / 255 := UInt32.toNat_div _ _
  rw [hdiv, UInt8.toNat_toUInt32]
  have hle : period.units / 255 * duty.toNat ≤ period.units / 255 * 255 :=
    Nat.mul_le_mul_left _ (by omega)
  omega

theorem units_edgeAt (period : Fixed) (duty : UInt8) :
    (edgeAt period duty).units = period.units / 255 * duty.toNat := by
  have h := (Fixed.times_of_lt (edge_product_lt period duty)).2
  rw [UInt8.toNat_toUInt32] at h
  exact h.trans (congrArg (· * duty.toNat) (UInt32.toNat_div _ _))

theorem units_edgeAt_le (period : Fixed) (duty : UInt8) :
    (edgeAt period duty).units ≤ period.units := by
  have hduty := duty.toNat_lt
  have hle : period.units / 255 * duty.toNat ≤ period.units / 255 * 255 :=
    Nat.mul_le_mul_left _ (by omega)
  rw [units_edgeAt]
  omega

@[simp] theorem dutyEdge_eq (period : Fixed) (duty : UInt8) :
    dutyEdge period duty = .ok (edgeAt period duty) := by
  unfold dutyEdge
  rw [(Fixed.divBy_of_ne_zero period (by decide)).1]
  exact (Fixed.times_of_lt (edge_product_lt period duty)).1

theorem setPeriod_eq (p : Phase) (period : Fixed) :
    p.setPeriod period = .ok { p with period, edge := edgeAt period p.duty } := by
  unfold setPeriod
  rw [dutyEdge_eq]
  rfl

theorem setDuty_eq (p : Phase) (duty : UInt8) :
    p.setDuty duty = .ok { p with duty, edge := edgeAt p.period duty } := by
  unfold setDuty
  rw [dutyEdge_eq]
  rfl

theorem restart_eq (p : Phase) (period : Fixed) :
    p.restart period = .ok ⟨p.duty, Fixed.zero, period, edgeAt period p.duty⟩ :=
  setPeriod_eq _ _

end Phase

/-! ## Modulators -/

/-- A parameter cut to the limit. -/
theorem toNat_min_limit (x : UInt8) : (min x parameterLimit).toNat = min x.toNat 127 := by
  show (if x ≤ parameterLimit then x else parameterLimit).toNat = _
  split
  · rename_i h
    have hle : x.toNat ≤ 127 := UInt8.le_iff_toNat_le.1 h
    omega
  · rename_i h
    have hlt : ¬ x.toNat ≤ 127 := fun hle => h (UInt8.le_iff_toNat_le.2 hle)
    have hlimit : parameterLimit.toNat = 127 := rfl
    omega

theorem min_limit_min_limit (x : UInt8) :
    min (min x parameterLimit) parameterLimit = min x parameterLimit := by
  apply UInt8.toNat_inj.1
  rw [toNat_min_limit, toNat_min_limit]
  omega

theorem VibratoParams.toNat_steps (params : VibratoParams) :
    params.steps.toNat = 128 - min params.rate.toNat 127 := by
  have hmin := toNat_min_limit params.rate
  have hle : (min params.rate parameterLimit).toUInt32 ≤ 128 := by
    rw [UInt32.le_iff_toNat_le, UInt8.toNat_toUInt32, hmin]
    show _ ≤ 128
    omega
  unfold steps
  rw [UInt32.toNat_sub_of_le _ _ hle, UInt8.toNat_toUInt32, hmin]
  rfl

theorem VibratoParams.steps_pos (params : VibratoParams) : 1 ≤ params.steps.toNat := by
  rw [toNat_steps]
  omega

theorem VibratoParams.steps_le (params : VibratoParams) : params.steps.toNat ≤ 128 := by
  rw [toNat_steps]
  omega

theorem VibratoParams.steps_ne_zero (params : VibratoParams) : params.steps ≠ 0 := by
  intro h
  have hpos := params.steps_pos
  rw [h] at hpos
  exact absurd hpos (by decide)

/-- An enabled vibrato at the start of a cycle around a base period. -/
def Vibrato.around (params : VibratoParams) (base : Fixed) : Vibrato where
  enabled := true
  params := ⟨min params.rate parameterLimit, params.depth⟩
  rising := true
  time := Fixed.zero
  halfPeriod := ⟨Fixed.one.raw * params.steps⟩
  fullPeriod := ⟨Fixed.one.raw * params.steps * 2⟩
  delta := ⟨(base.mul (depthRatio params.depth)).raw / params.steps⟩
  base

theorem Vibrato.units_halfPeriod (params : VibratoParams) (base : Fixed) :
    Fixed.one.times params.steps = .ok (around params base).halfPeriod ∧
      (around params base).halfPeriod.units = params.steps.toNat * 65536 := by
  have hsteps := params.steps_le
  have h := Fixed.times_of_lt (a := Fixed.one) (n := params.steps) (by
    rw [Fixed.units_one]
    omega)
  rw [Fixed.units_one, Nat.mul_comm] at h
  exact h

theorem Vibrato.units_fullPeriod (params : VibratoParams) (base : Fixed) :
    (around params base).halfPeriod.times 2 = .ok (around params base).fullPeriod ∧
      (around params base).fullPeriod.units = 2 * params.steps.toNat * 65536 := by
  have hsteps := params.steps_le
  have hhalf := (units_halfPeriod params base).2
  have htwo : (2 : UInt32).toNat = 2 := rfl
  have h := Fixed.times_of_lt (a := (around params base).halfPeriod) (n := 2) (by
    rw [hhalf, htwo]
    omega)
  refine ⟨h.1, h.2.trans ?_⟩
  rw [hhalf, htwo]
  omega

theorem Vibrato.configured_eq (params : VibratoParams) (base : Fixed) :
    configured params base = .ok (around params base) := by
  unfold configured
  rw [(units_halfPeriod params base).1]
  show ((around params base).halfPeriod.times 2 >>= _) = _
  rw [(units_fullPeriod params base).1,
    (Fixed.divBy_of_ne_zero _ params.steps_ne_zero).1]
  rfl

namespace Envelope

/-- The step of a stage that lasts `ticks` ticks. -/
def stepOf (ticks : UInt8) (instant : Fixed) : Fixed :=
  if ticks = 0 then instant else ⟨Fixed.one.raw / ticks.toUInt32⟩

theorem stepFor_eq (ticks : UInt8) (instant : Fixed) :
    stepFor ticks instant = .ok (stepOf ticks instant) := by
  unfold stepFor stepOf
  split
  · rfl
  · rename_i h
    have hne : ticks.toUInt32 ≠ 0 := by
      intro h0
      have hzero := congrArg UInt32.toNat h0
      rw [UInt8.toNat_toUInt32] at hzero
      exact h (UInt8.toNat_inj.1 hzero)
    exact (Fixed.divBy_of_ne_zero _ hne).1

/-- The factor of a sustain level in 127ths. -/
def sustainAt (sustain : UInt8) : Fixed := ⟨Fixed.one.raw / 127 * sustain.toUInt32⟩

theorem sustain_product_lt (sustain : UInt8) :
    (⟨Fixed.one.raw / 127⟩ : Fixed).units * sustain.toUInt32.toNat < 4294967296 := by
  have hunits : (⟨Fixed.one.raw / 127⟩ : Fixed).units = 516 := rfl
  have hsustain := sustain.toNat_lt
  rw [hunits, UInt8.toNat_toUInt32]
  omega

theorem units_sustainAt (sustain : UInt8) :
    (sustainAt sustain).units = 516 * sustain.toNat := by
  have h := (Fixed.times_of_lt (sustain_product_lt sustain)).2
  rwa [UInt8.toNat_toUInt32] at h

/-- The envelope with new parameters. -/
def withParams (e : Envelope) (params : EnvelopeParams) : Envelope :=
  { e with
    params := params.clamped
    attackStep := stepOf params.clamped.attack Fixed.one
    decayStep := stepOf params.clamped.decay Fixed.one
    sustainFactor := sustainAt params.clamped.sustain
    releaseStep := stepOf params.clamped.release ⟨131072⟩ }

theorem configure_eq (e : Envelope) (params : EnvelopeParams) :
    e.configure params = .ok (e.withParams params) := by
  unfold configure
  simp only [stepFor_eq]
  rw [(Fixed.divBy_of_ne_zero Fixed.one (by decide : (127 : UInt32) ≠ 0)).1]
  simp only [bind, Except.bind]
  rw [(Fixed.times_of_lt (sustain_product_lt params.clamped.sustain)).1]
  rfl

end Envelope

/-! ## Levels -/

theorem toInt_toInt16 {w : UInt16} (h : w.toNat < 32768) : w.toInt16.toInt = w.toNat := by
  have hword : w.toInt16.toBitVec.toNat = w.toNat := rfl
  show w.toInt16.toBitVec.toInt = _
  rw [BitVec.toInt_eq_toNat_cond, hword, if_pos (by omega)]

theorem toInt_velocity (velocity : UInt8) :
    velocity.toUInt16.toInt16.toInt = velocity.toNat := by
  have hlt := velocity.toNat_lt
  have hword := UInt8.toNat_toUInt16 velocity
  rw [toInt_toInt16 (by omega), hword]

/-- Only the least number is not negated. -/
theorem toInt_neg_of_ne {x : Int16} (h : x.toInt ≠ -32768) : (-x).toInt = -x.toInt := by
  have hge : -32768 ≤ x.toInt := x.le_toInt
  have hle : x.toInt ≤ 32767 := x.toInt_le
  rw [Int16.toInt_neg]
  exact Int.bmod_eq_of_le (by omega) (by omega)

/-- A small multiple of a velocity fits a sample. -/
theorem mulInt16_velocity {k : Int16} (hk : -16 ≤ k.toInt ∧ k.toInt ≤ 32) (velocity : UInt8) :
    Checked.mulInt16 k velocity.toUInt16.toInt16 = .ok (k * velocity.toUInt16.toInt16) ∧
      (k * velocity.toUInt16.toInt16).toInt = k.toInt * velocity.toNat := by
  have hlt := velocity.toNat_lt
  have hhigh : k.toInt * (velocity.toNat : Int) ≤ 32 * velocity.toNat :=
    Int.mul_le_mul_of_nonneg_right hk.2 (by omega)
  have hlow : -16 * (velocity.toNat : Int) ≤ k.toInt * velocity.toNat :=
    Int.mul_le_mul_of_nonneg_right hk.1 (by omega)
  constructor
  · unfold Checked.mulInt16
    simp only [toInt_velocity]
    rw [if_pos (by omega)]
  · rw [Int16.toInt_mul, toInt_velocity]
    generalize k.toInt * (velocity.toNat : Int) = product at hhigh hlow
    exact Int.bmod_eq_of_le (by omega) (by omega)

namespace Amplitude

/-- The level of a velocity. -/
def levelFor (velocity : UInt8) : Int16 := levelPerVelocity * velocity.toUInt16.toInt16

theorem toInt_levelFor (velocity : UInt8) : (levelFor velocity).toInt = 32 * velocity.toNat :=
  (mulInt16_velocity (k := levelPerVelocity) (by decide) velocity).2

/-- The levels after the start of a note. -/
def begun (a : Amplitude) (velocity : UInt8) : Amplitude :=
  if a.envelope.enabled then
    { limit := levelFor velocity, high := 0, low := 0, envelope := a.envelope.trigger }
  else
    { a with limit := levelFor velocity, high := levelFor velocity, low := -levelFor velocity }

theorem start_eq (a : Amplitude) (velocity : UInt8) :
    a.start velocity = .ok (a.begun velocity) := by
  unfold start begun
  rw [(mulInt16_velocity (by decide) velocity).1]
  simp only [bind, Except.bind]
  split <;> rfl

/-- The levels with new envelope parameters. -/
def withParams (a : Amplitude) (params : EnvelopeParams) : Amplitude :=
  { a with envelope := a.envelope.withParams params }

theorem configureEnvelope_eq (a : Amplitude) (params : EnvelopeParams) :
    a.configureEnvelope params = .ok (a.withParams params) := by
  unfold configureEnvelope
  rw [Envelope.configure_eq]
  rfl

end Amplitude

/-! ## Voices -/

namespace Square

/-- The square after an action. -/
def performed (s : Square) (t : Tuning) : Action → Square
  | .noteOn note velocity =>
      { note
        held := true
        phase := ⟨s.phase.duty, Fixed.zero, t.period note,
          Phase.edgeAt (t.period note) s.phase.duty⟩
        isHigh := false
        amplitude := s.amplitude.begun velocity
        vibrato := if s.vibrato.enabled then Vibrato.around s.vibrato.params (t.period note)
          else s.vibrato }
  | .noteOff => s.noteOff
  | .setDuty duty =>
      { s with phase := { s.phase with duty, edge := Phase.edgeAt s.phase.period duty } }
  | .configureVibrato params => { s with vibrato := Vibrato.around params (t.period s.note) }
  | .vibratoOn => { s with vibrato := Vibrato.around s.vibrato.params (t.period s.note) }
  | .vibratoOff =>
      { s with
        vibrato := { s.vibrato with enabled := false }
        phase := { s.phase with
          period := t.period s.note, edge := Phase.edgeAt (t.period s.note) s.phase.duty } }
  | .configureEnvelope params => { s with amplitude := s.amplitude.withParams params }
  | .envelopeOn => { s with amplitude := s.amplitude.setEnvelope true }
  | .envelopeOff => { s with amplitude := s.amplitude.setEnvelope false }

theorem perform_eq (s : Square) (t : Tuning) (action : Action) :
    s.perform t action = .ok (s.performed t action) := by
  cases action with
  | noteOn note velocity =>
    show s.noteOn t note velocity = _
    unfold noteOn performed
    rw [Phase.restart_eq, Amplitude.start_eq]
    simp only [bind, Except.bind, Vibrato.configured_eq]
    split <;> rfl
  | noteOff => rfl
  | setDuty duty =>
    show s.setDuty duty = _
    unfold setDuty
    rw [Phase.setDuty_eq]
    rfl
  | configureVibrato params =>
    show s.configureVibrato t params = _
    unfold configureVibrato
    rw [Vibrato.configured_eq]
    rfl
  | vibratoOn =>
    show s.configureVibrato t s.vibrato.params = _
    unfold configureVibrato
    rw [Vibrato.configured_eq]
    rfl
  | vibratoOff =>
    show s.vibratoOff t = _
    unfold vibratoOff
    rw [Phase.setPeriod_eq]
    rfl
  | configureEnvelope params =>
    show (s.amplitude.configureEnvelope params >>= _) = _
    rw [Amplitude.configureEnvelope_eq]
    rfl
  | envelopeOn => rfl
  | envelopeOff => rfl

end Square

namespace Triangle

/-- The peak-to-peak swing of a velocity. -/
def swing (velocity : UInt8) : UInt16 := velocity.toUInt16 * 32

/-- The triangle with the steps for its velocity and phase. -/
def ramped (s : Triangle) : Triangle :=
  { s with
    up := rampStep (swing s.velocity) s.phase.edge
    down := -rampStep (swing s.velocity) (s.phase.period.monus s.phase.edge) }

theorem placeRamps_eq (s : Triangle) : s.placeRamps = .ok s.ramped := by
  have hfit : s.velocity.toUInt16.toNat * (32 : UInt16).toNat < UInt16.size := by
    have hlt := s.velocity.toNat_lt
    rw [UInt8.toNat_toUInt16]
    show s.velocity.toNat * 32 < 65536
    omega
  unfold placeRamps Checked.mul16
  rw [if_pos hfit]
  rfl

/-- The triangle after an action. -/
def performed (s : Triangle) (t : Tuning) : Action → Triangle
  | .noteOn note velocity =>
      ramped { s with
        note
        velocity
        low := -16 * velocity.toUInt16.toInt16
        phase := ⟨s.phase.duty, Fixed.zero, t.period note,
          Phase.edgeAt (t.period note) s.phase.duty⟩
        rising := true
        current := -16 * velocity.toUInt16.toInt16
        held := true }
  | .noteOff => s.noteOff
  | .setDuty duty =>
      ramped { s with phase := { s.phase with duty, edge := Phase.edgeAt s.phase.period duty } }
  | .vibratoOn => { s with vibratoFlag := true }
  | .vibratoOff => { s with vibratoFlag := false }
  | .configureVibrato _ | .configureEnvelope _ | .envelopeOn | .envelopeOff => s

theorem perform_eq (s : Triangle) (t : Tuning) (action : Action) :
    s.perform t action = .ok (s.performed t action) := by
  cases action with
  | noteOn note velocity =>
    show s.noteOn t note velocity = _
    unfold noteOn performed
    rw [(mulInt16_velocity (by decide) velocity).1, Phase.restart_eq]
    exact placeRamps_eq _
  | setDuty duty =>
    show s.setDuty duty = _
    unfold setDuty
    rw [Phase.setDuty_eq]
    exact placeRamps_eq _
  | noteOff => rfl
  | vibratoOn => rfl
  | vibratoOff => rfl
  | configureVibrato params => rfl
  | configureEnvelope params => rfl
  | envelopeOn => rfl
  | envelopeOff => rfl

end Triangle

namespace Noise

/-- The noise after an action. -/
def performed (s : Noise) : Action → Noise
  | .noteOn note velocity =>
      { s with
        note := note &&& 0x7F
        held := true
        prescaler := 128 - (note &&& 0x7F)
        counter := 128 - (note &&& 0x7F)
        amplitude := s.amplitude.begun velocity }
  | .noteOff => s.noteOff
  | .configureEnvelope params => { s with amplitude := s.amplitude.withParams params }
  | .envelopeOn => { s with amplitude := s.amplitude.setEnvelope true }
  | .envelopeOff => { s with amplitude := s.amplitude.setEnvelope false }
  | .setDuty _ | .configureVibrato _ | .vibratoOn | .vibratoOff => s

theorem perform_eq (s : Noise) (action : Action) :
    s.perform action = .ok (s.performed action) := by
  cases action with
  | noteOn note velocity =>
    have hle : note &&& 0x7F ≤ 128 := by
      rw [UInt8.le_iff_toNat_le, UInt8.toNat_and]
      exact Nat.le_trans Nat.and_le_right (by decide)
    show s.noteOn note velocity = _
    unfold noteOn
    simp only [Checked.sub8, if_pos hle, Amplitude.start_eq]
    rfl
  | configureEnvelope params =>
    show (s.amplitude.configureEnvelope params >>= _) = _
    rw [Amplitude.configureEnvelope_eq]
    rfl
  | noteOff => rfl
  | envelopeOn => rfl
  | envelopeOff => rfl
  | setDuty duty => rfl
  | configureVibrato params => rfl
  | vibratoOn => rfl
  | vibratoOff => rfl

end Noise

/-! ## The synthesizer -/

theorem Channel.ofNumber_eq_ok {n : UInt8} {c : Channel} :
    ofNumber n = .ok c ↔ n = c.number := by
  constructor
  · intro h
    unfold ofNumber at h
    split at h
    all_goals cases h
    all_goals rfl
  · rintro rfl
    cases c <;> rfl

/-- The action that a command has for a channel. -/
def Command.actionFor (channel : Channel) : Command → Option Action
  | .allNotesOff => some .noteOff
  | .address number action => if number = channel.number then some action else none

namespace Synth

variable {ρ : Type}

/-- The synthesizer after a command: each voice after the action meant for it. -/
def applied (s : Synth ρ) (c : Command) : Synth ρ :=
  { s with
    squareA := ((c.actionFor .squareA).map (s.squareA.performed s.tuning)).getD s.squareA
    squareB := ((c.actionFor .squareB).map (s.squareB.performed s.tuning)).getD s.squareB
    triangle := ((c.actionFor .triangle).map (s.triangle.performed s.tuning)).getD s.triangle
    noise := ((c.actionFor .noise).map s.noise.performed).getD s.noise }

theorem apply_eq (s : Synth ρ) (c : Command) : s.apply c = .ok (s.applied c) := by
  cases c with
  | allNotesOff => rfl
  | address number action =>
    unfold apply
    cases hnumber : Channel.ofNumber number with
    | error e =>
      have hnone (channel : Channel) :
          (Command.address number action).actionFor channel = none := by
        refine if_neg fun heq => ?_
        rw [Channel.ofNumber_eq_ok.2 heq] at hnumber
        cases hnumber
      unfold applied
      simp only [hnone, hnumber]
      rfl
    | ok channel =>
      rw [Channel.ofNumber_eq_ok.1 hnumber]
      cases channel with
      | squareA =>
        show (s.squareA.perform s.tuning action >>= _) = _
        rw [Square.perform_eq]
        rfl
      | squareB =>
        show (s.squareB.perform s.tuning action >>= _) = _
        rw [Square.perform_eq]
        rfl
      | triangle =>
        show (s.triangle.perform s.tuning action >>= _) = _
        rw [Triangle.perform_eq]
        rfl
      | noise =>
        show (s.noise.perform action >>= _) = _
        rw [Noise.perform_eq]
        rfl

/-- The synthesizer after commands in order. -/
def appliedAll (s : Synth ρ) (cs : List Command) : Synth ρ := cs.foldl applied s

theorem applyAll_eq (s : Synth ρ) (cs : List Command) :
    s.applyAll cs = .ok (s.appliedAll cs) := by
  induction cs generalizing s with
  | nil => rfl
  | cons c cs ih =>
    unfold applyAll
    rw [apply_eq]
    exact ih (s.applied c)

end Synth

end Chiptune
