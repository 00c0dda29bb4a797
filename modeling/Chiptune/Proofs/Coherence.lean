import Chiptune.Proofs.Handshake
import Chiptune.Proofs.Headroom

/-!
# Coherent voices

Much of the state of a voice is derived: the edge from the period and the duty, the
levels from the velocity and the envelope, the steps of an envelope from its parameters,
the cycle of a vibrato from its parameters and the period of the note. Commands, samples
and modulation ticks each write some of these fields. `Coherent` says of every voice that
what is derived fits what it is derived from.

Each thing that is done to a part keeps it coherent (`Part.Coherent.performed`,
`Part.Coherent.modulate`, `Part.Coherent.next`), so the parts of every synthesizer that
arises are coherent (`parts_stay_coherent`).
-/

set_option autoImplicit false

namespace Chiptune

/-! ## Phases -/

namespace Phase

/-- The edge is where the duty places it in the period. -/
structure Placed (p : Phase) : Prop where
  edge_eq : dutyEdge p.period p.duty = .ok p.edge
  edge_le : p.edge ≤ p.period

theorem placed_iff {p : Phase} : p.Placed ↔ p.edge = edgeAt p.period p.duty := by
  constructor
  · intro h
    have hedge := h.edge_eq
    simp only [dutyEdge_eq, Except.ok.injEq] at hedge
    exact hedge.symm
  · intro h
    constructor
    · simp only [dutyEdge_eq, h]
    · rw [h, Fixed.le_iff_units]
      exact units_edgeAt_le p.period p.duty

theorem placed_idle (duty : UInt8) : (idle duty).Placed := by
  apply placed_iff.2
  apply Fixed.units_inj.1
  simp [idle, units_edgeAt]

theorem placed_edgeAt (duty : UInt8) (time period : Fixed) :
    Placed ⟨duty, time, period, edgeAt period duty⟩ :=
  placed_iff.2 rfl

theorem Placed.atTime {p : Phase} (h : p.Placed) (time : Fixed) : Placed { p with time } :=
  ⟨h.edge_eq, h.edge_le⟩

end Phase

/-! ## Envelopes -/

namespace Envelope

/-- The parameters are within the limit and the steps are theirs. The factor is at most
one, and it is zero when the envelope is off. -/
structure Coherent (e : Envelope) : Prop where
  params_eq : e.params.clamped = e.params
  attack_eq : stepFor e.params.attack Fixed.one = .ok e.attackStep
  decay_eq : stepFor e.params.decay Fixed.one = .ok e.decayStep
  sustain_eq : e.sustainFactor.units = 65536 / 127 * e.params.sustain.toNat
  release_eq : stepFor e.params.release ⟨131072⟩ = .ok e.releaseStep
  factor_le : e.factor ≤ Fixed.one
  off : e.stage = .off → e.factor = Fixed.zero

theorem coherent_fresh : fresh.Coherent :=
  ⟨rfl, rfl, rfl, rfl, rfl, by decide, fun _ => rfl⟩

/-- Only the release ends in the stage off, and then with a factor of zero. -/
theorem step_eq_off {e e' : Envelope} (hok : e.step = .ok e') (hoff : e'.stage = .off) :
    e' = e ∨ e'.factor = Fixed.zero := by
  cases tick_of_step hok with
  | rest _ => exact Or.inl rfl
  | finish _ _ => exact Or.inr rfl
  | top _ _ | settle _ _ => cases hoff
  | climb hstage _ _ | sink hstage _ _ | fade hstage _ _ => cases hstage.symm.trans hoff

theorem clamped_clamped (params : EnvelopeParams) : params.clamped.clamped = params.clamped := by
  simp only [EnvelopeParams.clamped, min_limit_min_limit]

section Coherent

variable {e e' : Envelope}

theorem Coherent.bounded (h : e.Coherent) : e.Bounded := by
  refine ⟨Fixed.le_iff_units.1 h.factor_le, ?_, ?_⟩
  · have hattack := h.attack_eq
    simp only [stepFor_eq, Except.ok.injEq] at hattack
    rw [← hattack]
    exact units_stepOf_le e.params.attack
  · have hle := units_sustainAt_clamped_le e.params
    rw [h.params_eq, units_sustainAt] at hle
    exact h.sustain_eq.trans_le hle

/-- The parameters are at most 127. -/
theorem Coherent.params_le (h : e.Coherent) :
    e.params.attack.toNat ≤ 127 ∧ e.params.decay.toNat ≤ 127 ∧
      e.params.sustain.toNat ≤ 127 ∧ e.params.release.toNat ≤ 127 := by
  rw [← h.params_eq]
  simp only [EnvelopeParams.clamped, toNat_min_limit]
  omega

/-- The steps in terms of the parameters. -/
theorem Coherent.units_steps (h : e.Coherent) :
    e.attackStep.units = stepUnits e.params.attack.toNat 65536 ∧
      e.decayStep.units = stepUnits e.params.decay.toNat 65536 ∧
      e.releaseStep.units = stepUnits e.params.release.toNat 131072 := by
  have hattack := h.attack_eq
  have hdecay := h.decay_eq
  have hrelease := h.release_eq
  simp only [stepFor_eq, Except.ok.injEq] at hattack hdecay hrelease
  rw [← hattack, ← hdecay, ← hrelease]
  exact ⟨units_stepOf _ _, units_stepOf _ _, units_stepOf _ _⟩

/-- What is done to an envelope between two configurations leaves its parameters and its
steps alone. -/
theorem Coherent.moved (h : e.Coherent) {enabled pending : Bool} {stage : Stage} {factor : Fixed}
    (hle : factor.units ≤ 65536) (hoff : stage = .off → factor = Fixed.zero) :
    Coherent { e with enabled, pending, stage, factor } where
  params_eq := h.params_eq
  attack_eq := h.attack_eq
  decay_eq := h.decay_eq
  sustain_eq := h.sustain_eq
  release_eq := h.release_eq
  factor_le := Fixed.le_iff_units.2 hle
  off := hoff

theorem Coherent.withParams (h : e.Coherent) (params : EnvelopeParams) :
    (e.withParams params).Coherent where
  params_eq := clamped_clamped params
  attack_eq := stepFor_eq _ _
  decay_eq := stepFor_eq _ _
  sustain_eq := units_sustainAt _
  release_eq := stepFor_eq _ _
  factor_le := h.factor_le
  off := h.off

theorem Coherent.trigger (h : e.Coherent) : e.trigger.Coherent :=
  h.moved (Nat.zero_le _) fun _ => rfl

theorem Coherent.release (h : e.Coherent) : e.release.Coherent :=
  h.moved h.bounded.factor_le fun hoff => nomatch hoff

theorem Coherent.setEnabled (h : e.Coherent) (enabled : Bool) :
    Coherent { e with enabled } :=
  h.moved h.bounded.factor_le h.off

theorem Coherent.takePending (h : e.Coherent) : Coherent { e with pending := false } :=
  h.moved h.bounded.factor_le h.off

theorem Coherent.step (h : e.Coherent) (hok : e.step = .ok e') : e'.Coherent := by
  obtain ⟨factor, stage, pending, hstep, hle⟩ := h.bounded.step
  obtain rfl := Except.ok.inj (hok.symm.trans hstep)
  apply h.moved hle
  intro hoff
  rcases step_eq_off hstep hoff with hsame | hzero
  · have hstage : stage = e.stage := congrArg Envelope.stage hsame
    have hfactor : factor = e.factor := congrArg Envelope.factor hsame
    rw [hfactor]
    exact h.off (hstage.symm.trans hoff)
  · exact hzero

end Coherent

end Envelope

/-! ## Levels -/

namespace Amplitude

/-- The two levels are opposite and within the limit, which a velocity gives. -/
structure Coherent (a : Amplitude) : Prop where
  low_eq : a.low.toInt = -a.high.toInt
  high_nonneg : 0 ≤ a.high.toInt
  high_le : a.high.toInt ≤ a.limit.toInt
  limit_le : a.limit.toInt ≤ 8160
  envelope : a.envelope.Coherent

theorem coherent_silent : silent.Coherent :=
  ⟨by decide, by decide, by decide, by decide, Envelope.coherent_fresh⟩

/-- A level between zero and the limit, and its opposite. -/
theorem coherent_of_level (high : Int16) {limit : Int16} {envelope : Envelope}
    (hnonneg : 0 ≤ high.toInt) (hle : high.toInt ≤ limit.toInt) (hlimit : limit.toInt ≤ 8160)
    (henvelope : envelope.Coherent) : Coherent ⟨limit, high, -high, envelope⟩ :=
  ⟨toInt_neg_of_ne (by omega), hnonneg, hle, hlimit, henvelope⟩

section Coherent

variable {a a' : Amplitude}

theorem Coherent.withinLimit (h : a.Coherent) : WithinLimit a.limit := by
  have hnonneg := h.high_nonneg
  have hle := h.high_le
  have hlimit := h.limit_le
  unfold WithinLimit
  omega

theorem Coherent.withEnvelope (h : a.Coherent) {envelope : Envelope}
    (henvelope : envelope.Coherent) : Coherent { a with envelope } :=
  { h with envelope := henvelope }

theorem Coherent.begun (h : a.Coherent) (velocity : UInt8) : (a.begun velocity).Coherent := by
  have hlevel := toInt_levelFor velocity
  have hlt := velocity.toNat_lt
  simp only [Amplitude.begun]
  -- an enabled envelope raises the level later, so the note starts at zero
  split
  · exact coherent_of_level 0 (Int.le_refl 0) (by rw [hlevel]; exact Int.natCast_nonneg _)
      (by omega) h.envelope.trigger
  · exact coherent_of_level _ (by omega) (Int.le_refl _) (by omega) h.envelope

theorem Coherent.stop (h : a.Coherent) : a.stop.Coherent := by
  simp only [Amplitude.stop]
  split
  · exact h.withEnvelope h.envelope.release
  · have hlimit : 0 ≤ a.limit.toInt := Int.le_trans h.high_nonneg h.high_le
    exact coherent_of_level 0 (Int.le_refl 0) hlimit h.limit_le h.envelope

theorem Coherent.refresh (h : a.Coherent) : a.refresh.Coherent := by
  rcases a.refresh_cases with ⟨-, hsame⟩ | ⟨-, htaken⟩
  · rw [hsame]
    exact h
  · -- a factor of at most one gives a level within the limit
    have hscaled := toInt_scaledLevel_le h.withinLimit h.envelope.bounded.factor_le
    have hlimit : 0 ≤ a.limit.toInt := Int.le_trans h.high_nonneg h.high_le
    rw [htaken]
    exact coherent_of_level _ hscaled.1 (by omega) h.limit_le h.envelope.takePending

theorem Coherent.modulate (h : a.Coherent) (hok : a.modulate = .ok a') : a'.Coherent := by
  rcases modulate_cases hok with ⟨-, rfl⟩ | ⟨-, envelope, hstep, rfl⟩
  · exact h
  · exact h.withEnvelope (h.envelope.step hstep)

theorem Coherent.performed (h : a.Coherent) (action : Action) : (a.performed action).Coherent := by
  cases action with
  | noteOn note velocity => exact h.begun velocity
  | noteOff => exact h.stop
  | configureEnvelope params => exact h.withEnvelope (h.envelope.withParams params)
  | envelopeOn => exact h.withEnvelope (h.envelope.setEnabled true)
  | envelopeOff => exact h.withEnvelope (h.envelope.setEnabled false)
  | setDuty duty => exact h
  | configureVibrato params => exact h
  | vibratoOn => exact h
  | vibratoOff => exact h

end Coherent

end Amplitude

/-! ## Vibratos -/

namespace Vibrato

/-- The vibrato goes around the base period with the change that its parameters give, and
it is at a place of the cycle that they give. -/
structure Coherent (v : Vibrato) (base : Fixed) : Prop where
  base_eq : v.base = base
  delta_eq : (base.mul (depthRatio v.params.depth)).divBy v.params.steps = .ok v.delta
  place : ∃ place, v.At v.params.steps.toNat place

theorem steps_around (params : VibratoParams) (base : Fixed) :
    (around params base).params.steps = params.steps := by
  simp only [around, VibratoParams.steps, min_limit_min_limit]

theorem coherent_around (params : VibratoParams) (base : Fixed) :
    (around params base).Coherent base := by
  refine ⟨rfl, ?_, 0, ?_⟩
  · rw [steps_around]
    exact (Fixed.divBy_of_ne_zero _ params.steps_ne_zero).1
  · rw [steps_around]
    exact at_around params base

/-- A tick moves only the place. -/
theorem Coherent.ticked {v : Vibrato} {base : Fixed} (h : v.Coherent base) {time : Fixed}
    {rising : Bool} {steps place place' : Nat} (hat : v.At steps place)
    (hat' : At { v with time, rising } steps place') : Coherent { v with time, rising } base := by
  obtain ⟨here, hhere⟩ := h.place
  obtain ⟨rfl, -⟩ := hat.unique hhere
  exact ⟨h.base_eq, h.delta_eq, place', hat'⟩

end Vibrato

/-! ## Voices -/

namespace Square

/-- The edge and the levels fit. Without a vibrato the period is that of the note, or none
if there was no note; with one, the vibrato goes around the period of the note. -/
structure Coherent (q : Square) (t : Tuning) : Prop where
  phase : q.phase.Placed
  amplitude : q.amplitude.Coherent
  unmodulated : q.vibrato.enabled = false →
    q.phase.period = Fixed.zero ∨ q.phase.period = t.period q.note
  modulated : q.vibrato.enabled = true → q.vibrato.Coherent (t.period q.note)

theorem coherent_fresh (duty : UInt8) (t : Tuning) : (fresh duty).Coherent t where
  phase := Phase.placed_idle duty
  amplitude := Amplitude.coherent_silent
  unmodulated := fun _ => Or.inl rfl
  modulated := fun h => nomatch h

/-- A sample leaves the note, the vibrato and all of the phase but its time. -/
theorem next_frame {q q' : Square} {x : Int16} (hok : q.next = .ok (x, q')) :
    q'.note = q.note ∧ q'.vibrato = q.vibrato ∧ ∃ time, q'.phase = { q.phase with time } := by
  rcases q.next_cases with ⟨-, herror⟩ | ⟨-, hok'⟩ | ⟨-, time, -, ⟨-, hok'⟩ | ⟨-, -, hok'⟩ |
    ⟨-, -, rest, -, hok'⟩⟩
  · rw [hok] at herror
    cases herror
  all_goals
    rw [hok] at hok'
    cases hok'
    exact ⟨rfl, rfl, _, rfl⟩

theorem coherent_amplitude_next {q q' : Square} {x : Int16} (h : q.amplitude.Coherent)
    (hok : q.next = .ok (x, q')) : q'.amplitude.Coherent := by
  rw [(amplitude_next hok).1]
  split
  · exact h.refresh
  · exact h

section Coherent

variable {q q' : Square} {t : Tuning}

theorem Coherent.hasPlace (h : q.Coherent t) : q.HasPlace := by
  intro henabled
  obtain ⟨place, hat⟩ := (h.modulated henabled).place
  exact ⟨_, place, hat⟩

theorem Coherent.performed (h : q.Coherent t) (action : Action) :
    (q.performed t action).Coherent t := by
  have hamplitude := h.amplitude.performed action
  rw [← amplitude_performed q t action] at hamplitude
  cases action with
  | noteOn note velocity =>
    refine ⟨Phase.placed_edgeAt _ _ _, hamplitude, fun _ => Or.inr rfl, ?_⟩
    -- a vibrato that is on starts again around the new note
    intro henabled
    simp only [Square.performed] at henabled ⊢
    split at henabled
    · rename_i hon
      rw [if_pos hon]
      exact Vibrato.coherent_around q.vibrato.params (t.period note)
    · rename_i hoff
      exact absurd henabled hoff
  | noteOff => exact ⟨h.phase, hamplitude, h.unmodulated, h.modulated⟩
  | setDuty duty =>
    exact ⟨Phase.placed_edgeAt _ _ _, hamplitude, h.unmodulated, h.modulated⟩
  | configureVibrato params =>
    refine ⟨h.phase, hamplitude, (fun hoff => nomatch hoff), fun _ => ?_⟩
    exact Vibrato.coherent_around params (t.period q.note)
  | vibratoOn =>
    refine ⟨h.phase, hamplitude, (fun hoff => nomatch hoff), fun _ => ?_⟩
    exact Vibrato.coherent_around q.vibrato.params (t.period q.note)
  | vibratoOff =>
    -- the period of the note comes back with the end of the vibrato
    exact ⟨Phase.placed_edgeAt _ _ _, hamplitude, fun _ => Or.inr rfl, fun hon => nomatch hon⟩
  | configureEnvelope params => exact ⟨h.phase, hamplitude, h.unmodulated, h.modulated⟩
  | envelopeOn => exact ⟨h.phase, hamplitude, h.unmodulated, h.modulated⟩
  | envelopeOff => exact ⟨h.phase, hamplitude, h.unmodulated, h.modulated⟩

theorem Coherent.modulateVibrato (h : q.Coherent t) (hok : q.modulateVibrato = .ok q') :
    q'.Coherent t := by
  rcases modulateVibrato_cases h.hasPlace with ⟨-, herror⟩ | ⟨-, hsame⟩ |
    ⟨henabled, -, steps, place, period, time, rising, hat, hat', -, hok'⟩
  · rw [hok] at herror
    cases herror
  · rw [hok] at hsame
    cases hsame
    exact h
  · rw [hok] at hok'
    cases hok'
    refine ⟨Phase.placed_edgeAt _ _ _, h.amplitude, ?_, ?_⟩
    · intro hoff
      exact absurd (hoff.symm.trans henabled) (by decide)
    · intro _
      exact (h.modulated henabled).ticked hat hat'

theorem Coherent.modulateEnvelope (h : q.Coherent t) (hok : q.modulateEnvelope = .ok q') :
    q'.Coherent t := by
  obtain ⟨amplitude, hmodulate, rfl⟩ := modulateEnvelope_eq_ok.1 hok
  exact ⟨h.phase, h.amplitude.modulate hmodulate, h.unmodulated, h.modulated⟩

theorem Coherent.next (h : q.Coherent t) {x : Int16} (hok : q.next = .ok (x, q')) :
    q'.Coherent t := by
  obtain ⟨hnote, hvibrato, time, hphase⟩ := next_frame hok
  refine ⟨?_, coherent_amplitude_next h.amplitude hok, ?_, ?_⟩
  · rw [hphase]
    exact h.phase.atTime time
  · rw [hnote, hvibrato, hphase]
    exact h.unmodulated
  · rw [hnote, hvibrato]
    exact h.modulated

end Coherent

end Square

namespace Triangle

/-- The edge fits, the low level is that of a velocity, and the ramps go up and down. -/
structure Coherent (r : Triangle) : Prop where
  phase : r.phase.Placed
  low_ge : -4080 ≤ r.low.toInt
  low_le : r.low.toInt ≤ 0
  up_nonneg : 0 ≤ r.up.toInt
  down_nonpos : r.down.toInt ≤ 0

theorem coherent_fresh (duty : UInt8) : (fresh duty).Coherent where
  phase := Phase.placed_idle duty
  low_ge := by simp [fresh]
  low_le := Int.le_refl 0
  up_nonneg := Int.le_refl 0
  down_nonpos := Int.le_refl 0

section Coherent

variable {r r' : Triangle}

theorem Coherent.performed (h : r.Coherent) (t : Tuning) (action : Action) :
    (r.performed t action).Coherent := by
  rcases r.performed_cases t action with ⟨note, velocity, rfl⟩ | ⟨duty, rfl⟩ | rfl | ⟨flag, hflag⟩
  · -- sixteen times a velocity is at most 4080
    have hlow := (mulInt16_velocity (k := -16) (by decide) velocity).2
    have hlt := velocity.toNat_lt
    have hfactor : (-16 : Int16).toInt = -16 := rfl
    obtain ⟨hup, hdown⟩ := ramped_signs { r with
      note
      velocity
      low := -16 * velocity.toUInt16.toInt16
      phase := ⟨r.phase.duty, Fixed.zero, t.period note, Phase.edgeAt (t.period note) r.phase.duty⟩
      rising := true
      current := -16 * velocity.toUInt16.toInt16
      held := true }
    refine ⟨Phase.placed_edgeAt _ _ _, ?_, ?_, hup, hdown⟩
    all_goals
      simp only [Triangle.performed, ramped, hlow, hfactor]
      omega
  · obtain ⟨hup, hdown⟩ := ramped_signs
      { r with phase := { r.phase with duty, edge := Phase.edgeAt r.phase.period duty } }
    exact ⟨Phase.placed_edgeAt _ _ _, h.low_ge, h.low_le, hup, hdown⟩
  · refine ⟨h.phase, ?_, Int.le_refl 0, Int.le_refl 0, Int.le_refl 0⟩
    simp [Triangle.performed, noteOff]
  · rw [hflag]
    exact ⟨h.phase, h.low_ge, h.low_le, h.up_nonneg, h.down_nonpos⟩

theorem Coherent.next (h : r.Coherent) {x : Int16} (hok : r.next = .ok (x, r')) : r'.Coherent := by
  obtain ⟨hsame, -⟩ := next_eq_ok hok
  refine ⟨⟨?_, ?_⟩, ?_, ?_, ?_, ?_⟩
  · rw [hsame.period_eq, hsame.duty_eq, hsame.edge_eq]
    exact h.phase.edge_eq
  · rw [hsame.period_eq, hsame.edge_eq]
    exact h.phase.edge_le
  · rw [hsame.low_eq]
    exact h.low_ge
  · rw [hsame.low_eq]
    exact h.low_le
  · rw [hsame.up_eq]
    exact h.up_nonneg
  · rw [hsame.down_eq]
    exact h.down_nonpos

end Coherent

end Triangle

namespace Noise

/-- The count is not above the prescaler, which a note gives, and the levels fit. -/
structure Coherent (n : Noise) : Prop where
  counter_le : n.counter ≤ n.prescaler
  prescaler_le : n.prescaler ≤ 128
  amplitude : n.amplitude.Coherent

theorem coherent_fresh : fresh.Coherent :=
  ⟨by decide, by decide, Amplitude.coherent_silent⟩

section Coherent

variable {n n' : Noise}

theorem Coherent.performed (h : n.Coherent) (action : Action) : (n.performed action).Coherent := by
  have hamplitude := h.amplitude.performed action
  rw [← amplitude_performed n action] at hamplitude
  cases action with
  | noteOn note velocity =>
    -- the masked note is below 128, so the difference does not wrap
    have hnote : note &&& 0x7F ≤ 128 := by
      rw [UInt8.le_iff_toNat_le, UInt8.toNat_and]
      exact Nat.le_trans Nat.and_le_right (by decide)
    exact ⟨UInt8.le_refl _, UInt8.sub_le hnote, hamplitude⟩
  | noteOff => exact ⟨h.counter_le, h.prescaler_le, hamplitude⟩
  | configureEnvelope params => exact ⟨h.counter_le, h.prescaler_le, hamplitude⟩
  | envelopeOn => exact ⟨h.counter_le, h.prescaler_le, hamplitude⟩
  | envelopeOff => exact ⟨h.counter_le, h.prescaler_le, hamplitude⟩
  | setDuty duty => exact h
  | configureVibrato params => exact h
  | vibratoOn => exact h
  | vibratoOff => exact h

theorem Coherent.modulateEnvelope (h : n.Coherent) (hok : n.modulateEnvelope = .ok n') :
    n'.Coherent := by
  obtain ⟨amplitude, hmodulate, rfl⟩ := modulateEnvelope_eq_ok.1 hok
  exact ⟨h.counter_le, h.prescaler_le, h.amplitude.modulate hmodulate⟩

theorem Coherent.next {ρ : Type} [BitSource ρ] (h : n.Coherent) {source source' : ρ} {x : Int16}
    (hok : n.next source = .ok (x, n', source')) : n'.Coherent := by
  rcases n.next_cases source with ⟨-, hok'⟩ | ⟨hne, hok'⟩
  · rw [hok] at hok'
    cases hok'
    exact ⟨UInt8.le_refl _, h.prescaler_le, h.amplitude.refresh⟩
  · rw [hok] at hok'
    cases hok'
    -- a count of zero reloads, so counting down does not wrap
    have hone : 1 ≤ n.counter := by
      rw [UInt8.le_iff_toNat_le]
      exact Nat.pos_of_ne_zero fun hzero => hne (UInt8.toNat_inj.1 hzero)
    exact ⟨UInt8.le_trans (UInt8.sub_le hone) h.counter_le, h.prescaler_le, h.amplitude⟩

end Coherent

end Noise

/-! ## Parts -/

namespace Part

variable {ρ : Type}

/-- The voice of the part is coherent. -/
def Coherent (t : Tuning) : Part ρ → Prop
  | square q => q.Coherent t
  | triangle r => r.Coherent
  | noise n _ => n.Coherent

theorem coherent_tuned (t : Tuning) (source : ρ) (c : Channel) :
    ((Synth.tuned t source).part c).Coherent t := by
  cases c with
  | squareA => exact Square.coherent_fresh 64 t
  | squareB => exact Square.coherent_fresh 127 t
  | triangle => exact Triangle.coherent_fresh 32
  | noise => exact Noise.coherent_fresh

section Coherent

variable {p p' : Part ρ} {t : Tuning}

theorem Coherent.performed (h : p.Coherent t) (action : Action) :
    (p.performed t action).Coherent t := by
  cases p with
  | square q => exact Square.Coherent.performed h action
  | triangle r => exact Triangle.Coherent.performed h t action
  | noise n source => exact Noise.Coherent.performed h action

theorem Coherent.modulate (h : p.Coherent t) (hok : p.modulate = .ok p') : p'.Coherent t := by
  cases p with
  | square q =>
    obtain ⟨q₁, q', rfl, hvibrato, henvelope⟩ := exists_of_modulate_square hok
    have hq : q.Coherent t := h
    exact (hq.modulateVibrato hvibrato).modulateEnvelope henvelope
  | triangle r =>
    cases hok
    exact h
  | noise n source =>
    obtain ⟨n', rfl, henvelope⟩ := exists_of_modulate_noise hok
    exact Noise.Coherent.modulateEnvelope h henvelope

theorem Coherent.next [BitSource ρ] (h : p.Coherent t) {x : Int16} (hok : p.next = .ok (x, p')) :
    p'.Coherent t := by
  cases p with
  | square q =>
    obtain ⟨q', rfl, hnext⟩ := exists_of_next_square hok
    exact Square.Coherent.next h hnext
  | triangle r =>
    obtain ⟨r', rfl, hnext⟩ := exists_of_next_triangle hok
    exact Triangle.Coherent.next h hnext
  | noise n source =>
    obtain ⟨n', source', rfl, hnext⟩ := exists_of_next_noise hok
    exact Noise.Coherent.next h hnext

end Coherent

end Part

/-! ## Synthesizers -/

namespace Synth

variable {ρ : Type} [BitSource ρ]

/-- A move keeps every part coherent. -/
theorem coherent_move {s s' : Synth ρ} {m : Move} (c : Channel)
    (h : (s.part c).Coherent s.tuning) (hok : s.move m = .ok s') :
    (s'.part c).Coherent s'.tuning := by
  rw [tuning_move hok]
  rcases move_part hok c with ⟨-, x, hnext⟩ | ⟨-, -, hmodulate⟩ | ⟨-, action, -, hpart⟩ | ⟨-, hpart⟩
  · exact h.next hnext
  · exact h.modulate hmodulate
  · rw [hpart]
    exact h.performed action
  · rw [hpart]
    exact h

theorem Reachable.coherent {s : Synth ρ} (h : s.Reachable) (c : Channel) :
    (s.part c).Coherent s.tuning := by
  induction h with
  | tuned t source => exact Part.coherent_tuned t source c
  | move _ hok ih => exact coherent_move c ih hok
  | @restart s rate _ _ =>
    -- a restart gives every part its first state, with the tuning of the new rate
    have hfresh := Part.coherent_tuned (Tuning.equalTempered rate) s.source c
    rw [← part_withRing _ s.ring.clear] at hfresh
    exact hfresh

theorem Reachable.run {s s' : Synth ρ} (h : s.Reachable) {moves : List Move}
    (hrun : s.run moves = .ok s') : s'.Reachable :=
  run_keeps (fun _ _ _ hs hok => hs.move hok) h hrun

/-- In every synthesizer that arises from a silent one by commands, samples, modulation
ticks and restarts, what the voices derive fits what they derive it from: edges, levels,
the cycles of the vibratos, the count of the noise, the ramps of the triangle and the steps
of the envelopes. -/
theorem parts_stay_coherent {s : Synth ρ} (h : s.Reachable) :
    (∀ side, (s.square side).Coherent s.tuning) ∧ s.triangle.Coherent ∧ s.noise.Coherent := by
  refine ⟨?_, h.coherent .triangle, h.coherent .noise⟩
  intro side
  have hpart := h.coherent side.channel
  rw [part_side] at hpart
  exact hpart

theorem parts_stay_coherent_in_vibrato :
    let s := tuned ⟨48000, Vector.replicate 128 ⟨131072⟩⟩ (Lfsr.seeded 1)
    let moves : List Move :=
      [.command (.address 0 (.configureVibrato ⟨126, 50⟩)), .command (.address 0 .envelopeOn),
        .command (.address 0 (.configureEnvelope ⟨200, 0, 90, 3⟩)),
        .command (.address 0 (.noteOn 60 100)), .modulate, .mix, .modulate, .mix, .modulate]
    ∃ u, s.run moves = .ok u ∧ u.Reachable ∧ (u.square .a).vibrato.time = ⟨196608⟩ ∧
      (u.square .a).amplitude.envelope.factor = ⟨1548⟩ ∧ (u.square .a).Coherent u.tuning := by
  intro s moves
  have heval : (s.run moves).toOption.map (fun u =>
      ((u.square .a).vibrato.time, (u.square .a).amplitude.envelope.factor)) =
      some (⟨196608⟩, ⟨1548⟩) := by
    decide +kernel
  obtain ⟨u, hrun, hu⟩ := exists_ok_of_toOption heval
  obtain ⟨htime, hfactor⟩ := Prod.mk.inj hu
  have hreachable : u.Reachable := (Reachable.tuned _ _).run hrun
  exact ⟨u, hrun, hreachable, htime, hfactor, (parts_stay_coherent hreachable).1 .a⟩

end Synth

end Chiptune
