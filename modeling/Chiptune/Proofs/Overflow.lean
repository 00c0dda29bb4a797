import Chiptune.Proofs.Parts
import Chiptune.Proofs.Ticks

/-!
# Where a run can fault

With periods of at most 23500 samples in the tuning, two sums are all that can
leave the word: the period of a square under a rising vibrato, and then the time
of its phase. Every other operation of a run stays in range, whatever the order
of the moves; `Synth.Sound` is the invariant behind that (`Synth.Sound.move`).

A vibrato starts around the period of the note, but it starts to move from the
period that the square has. One that starts while the period is above that of
the note can therefore add to what an earlier one has added. Where no vibrato
starts like that the periods stay below 26863 samples, and no run faults
(`Synth.Steady.run`).
-/

set_option autoImplicit false

namespace Chiptune

/-- No period is longer than 23500 samples. -/
def Tuning.Bounded (t : Tuning) : Prop := ∀ note, (t.period note).units ≤ 23500 * 65536

theorem Tuning.period_uniform (rate : UInt32) (period : Fixed) (note : UInt8) :
    (⟨rate, Vector.replicate 128 period⟩ : Tuning).period note = period :=
  Vector.getElem_replicate _

theorem Tuning.bounded_uniform (rate : UInt32) {period : Fixed}
    (h : period.units ≤ 23500 * 65536) :
    (⟨rate, Vector.replicate 128 period⟩ : Tuning).Bounded := by
  intro note
  rw [period_uniform]
  exact h

/-! ## Phases below a cap -/

/-- The phase of a voice whose periods stay below a cap. In the first part of its
cycle the voice has not passed the edge. -/
structure Phase.Within (p : Phase) (cap : Nat) (first : Bool) : Prop where
  period_le : p.period.units ≤ cap
  edge_le : p.edge.units ≤ cap
  time_lt : p.time.units < cap + 65536
  time_lt_first : first = true → p.time.units < cap

namespace Phase

theorem within_idle (duty : UInt8) {cap : Nat} (hcap : 0 < cap) (first : Bool) :
    (idle duty).Within cap first where
  period_le := Nat.zero_le _
  edge_le := Nat.zero_le _
  time_lt := Nat.lt_of_lt_of_le hcap (Nat.le_add_right _ _)
  time_lt_first := fun _ => hcap

section Within

variable {p : Phase} {cap : Nat} {first : Bool}

theorem within_start (duty : UInt8) {period : Fixed} (hcap : 0 < cap) (h : period.units ≤ cap) :
    Within ⟨duty, Fixed.zero, period, edgeAt period duty⟩ cap first where
  period_le := h
  edge_le := Nat.le_trans (units_edgeAt_le _ _) h
  time_lt := Nat.lt_of_lt_of_le hcap (Nat.le_add_right _ _)
  time_lt_first := fun _ => hcap

theorem Within.withPeriod (hp : p.Within cap first) {period : Fixed} (h : period.units ≤ cap) :
    Within { p with period, edge := edgeAt period p.duty } cap first where
  period_le := h
  edge_le := Nat.le_trans (units_edgeAt_le _ _) h
  time_lt := hp.time_lt
  time_lt_first := hp.time_lt_first

theorem Within.withDuty (hp : p.Within cap first) (duty : UInt8) :
    Within { p with duty, edge := edgeAt p.period duty } cap first where
  period_le := hp.period_le
  edge_le := Nat.le_trans (units_edgeAt_le _ _) hp.period_le
  time_lt := hp.time_lt
  time_lt_first := hp.time_lt_first

theorem Within.not_overflows (hp : p.Within cap first) (hcap : cap + 131072 ≤ 4294967296) :
    ¬ p.Overflows := by
  rintro ⟨-, hover⟩
  have htime := hp.time_lt
  unfold Fixed.AddOverflows at hover
  rw [Fixed.units_one] at hover
  omega

/-- From the first part of the cycle the next sample may pass the edge. -/
theorem Within.advance_first (hp : p.Within cap true) {time : Fixed}
    (htime : time.units = p.time.units + 65536) (hstay : first = true → time < p.edge) :
    Within { p with time } cap first where
  period_le := hp.period_le
  edge_le := hp.edge_le
  time_lt := by
    have hlt := hp.time_lt_first rfl
    show time.units < _
    omega
  time_lt_first := by
    intro hfirst
    exact Nat.lt_of_lt_of_le (Fixed.lt_iff_units.1 (hstay hfirst)) hp.edge_le

theorem Within.advance_second (hp : p.Within cap false) {time : Fixed} (hlt : time < p.period) :
    Within { p with time } cap false where
  period_le := hp.period_le
  edge_le := hp.edge_le
  time_lt := by
    have hle := hp.period_le
    have hlt' := Fixed.lt_iff_units.1 hlt
    show time.units < _
    omega
  time_lt_first := fun h => by cases h

theorem Within.wrapped (hp : p.Within cap first) (hne : p.period ≠ Fixed.zero) {rest : Fixed}
    {time : Nat} (hrest : rest.units = time % p.period.units) :
    Within { p with time := rest } cap true := by
  have hlt : rest.units < cap := by
    rw [hrest]
    exact Nat.lt_of_lt_of_le (Nat.mod_lt _ (Fixed.units_pos hne)) hp.period_le
  exact ⟨hp.period_le, hp.edge_le, Nat.lt_of_lt_of_le hlt (Nat.le_add_right _ _), fun _ => hlt⟩

end Within

end Phase

/-! ## Sound voices -/

theorem Amplitude.bounded_begun {a : Amplitude} (h : a.envelope.Bounded) (velocity : UInt8) :
    (a.begun velocity).envelope.Bounded := by
  unfold begun
  split
  · exact h.trigger
  · exact h

theorem Amplitude.bounded_stop {a : Amplitude} (h : a.envelope.Bounded) :
    a.stop.envelope.Bounded := by
  unfold stop
  split
  · exact ⟨h.factor_le, h.attack_le, h.sustain_le⟩
  · exact h

theorem Amplitude.bounded_refresh {a : Amplitude} (h : a.envelope.Bounded) :
    a.refresh.envelope.Bounded := by
  rcases a.refresh_cases with ⟨-, hsame⟩ | ⟨-, htaken⟩
  · rw [hsame]
    exact h
  · rw [htaken]
    exact ⟨h.factor_le, h.attack_le, h.sustain_le⟩

/-- The modulators of a square are in range. -/
structure Square.Sound (s : Square) : Prop where
  hasPlace : s.HasPlace
  bounded : s.amplitude.envelope.Bounded

theorem Square.sound_fresh (duty : UInt8) : (fresh duty).Sound :=
  ⟨(fun h => nomatch h), Envelope.bounded_fresh⟩

theorem Square.hasPlace_around {s : Square} {params : VibratoParams} {base : Fixed}
    (h : s.vibrato = Vibrato.around params base) : s.HasPlace := by
  intro _
  rw [h]
  exact ⟨_, _, Vibrato.at_around params base⟩

theorem Square.Sound.performed {s : Square} (h : s.Sound) (t : Tuning) (action : Action) :
    (s.performed t action).Sound := by
  cases action with
  | noteOn note velocity =>
    refine ⟨?_, Amplitude.bounded_begun h.bounded velocity⟩
    -- only a vibrato that is on starts again with the note
    by_cases henabled : s.vibrato.enabled = true
    · exact hasPlace_around (if_pos henabled)
    · intro hstill
      exact absurd ((congrArg Vibrato.enabled (if_neg henabled)).symm.trans hstill) henabled
  | noteOff => exact ⟨h.hasPlace, Amplitude.bounded_stop h.bounded⟩
  | setDuty duty => exact ⟨h.hasPlace, h.bounded⟩
  | configureVibrato params => exact ⟨hasPlace_around rfl, h.bounded⟩
  | vibratoOn => exact ⟨hasPlace_around rfl, h.bounded⟩
  | vibratoOff => exact ⟨(fun hoff => nomatch hoff), h.bounded⟩
  | configureEnvelope params => exact ⟨h.hasPlace, h.bounded.withParams params⟩
  | envelopeOn =>
    exact ⟨h.hasPlace, h.bounded.factor_le, h.bounded.attack_le, h.bounded.sustain_le⟩
  | envelopeOff =>
    exact ⟨h.hasPlace, h.bounded.factor_le, h.bounded.attack_le, h.bounded.sustain_le⟩

theorem Square.Sound.modulateVibrato {s : Square} (h : s.Sound) :
    (s.PeriodOverflows ∧ s.modulateVibrato = .error .addOverflow) ∨
    (¬ s.PeriodOverflows ∧ ∃ s', s.modulateVibrato = .ok s' ∧ s'.Sound) := by
  rcases modulateVibrato_cases h.hasPlace with hover | ⟨hoff, hok⟩ |
    ⟨-, hnot, steps, place, period, time, rising, -, hat, -, hok⟩
  · exact Or.inl hover
  · refine Or.inr ⟨fun hover => ?_, s, hok, h⟩
    rw [hover.1] at hoff
    cases hoff
  · exact Or.inr ⟨hnot, _, hok, fun _ => ⟨steps, _, hat⟩, h.bounded⟩

theorem Square.modulateEnvelope_of_bounded {s : Square} (h : s.amplitude.envelope.Bounded) :
    ∃ envelope, s.modulateEnvelope = .ok { s with amplitude := { s.amplitude with envelope } } ∧
      envelope.Bounded := by
  obtain ⟨envelope, hok, hbounded⟩ := Amplitude.modulate_of_bounded h
  exact ⟨envelope, modulateEnvelope_eq_ok.2 ⟨_, hok, rfl⟩, hbounded⟩

theorem Square.Sound.next {s : Square} (h : s.Sound) :
    (s.phase.Overflows ∧ s.next = .error .addOverflow) ∨
    (¬ s.phase.Overflows ∧ ∃ x s', s.next = .ok (x, s') ∧ s'.Sound) := by
  by_cases hover : s.phase.Overflows
  · refine Or.inl ⟨hover, ?_⟩
    rcases next_cases s with ⟨-, herror⟩ | ⟨hzero, -⟩ | ⟨-, time, htime, -⟩
    · exact herror
    · exact absurd hzero hover.1
    · have hunits := time.units_lt
      have htop : 4294967296 ≤ s.phase.time.units + 65536 := hover.2
      omega
  · refine Or.inr ⟨hover, ?_⟩
    rcases next_cases s with ⟨hover', -⟩ | ⟨-, hok⟩ | ⟨-, time, -, ⟨-, hok⟩ | ⟨-, -, hok⟩ |
      ⟨-, -, rest, -, hok⟩⟩
    · exact absurd hover' hover
    · exact ⟨_, _, hok, h⟩
    · exact ⟨_, _, hok, h.hasPlace, h.bounded⟩
    · exact ⟨_, _, hok, h.hasPlace, h.bounded⟩
    · exact ⟨_, _, hok, h.hasPlace, Amplitude.bounded_refresh h.bounded⟩

/-- The triangle has no vibrato, so its periods are those of the tuning. -/
def Triangle.Sound (s : Triangle) : Prop := s.phase.Within (23500 * 65536) s.rising

theorem Triangle.sound_fresh (duty : UInt8) : (fresh duty).Sound :=
  Phase.within_idle duty (by decide) _

theorem Triangle.Sound.performed {s : Triangle} (h : s.Sound) {t : Tuning} (ht : t.Bounded)
    (action : Action) : (s.performed t action).Sound := by
  cases action with
  | noteOn note velocity => exact Phase.within_start _ (by decide) (ht note)
  | setDuty duty => exact h.withDuty duty
  | noteOff => exact h
  | vibratoOn => exact h
  | vibratoOff => exact h
  | configureVibrato params => exact h
  | configureEnvelope params => exact h
  | envelopeOn => exact h
  | envelopeOff => exact h

theorem Triangle.Sound.next {s : Triangle} (h : s.Sound) :
    ∃ x s', s.next = .ok (x, s') ∧ s'.Sound := by
  rcases next_cases s with ⟨hover, -⟩ | ⟨-, hok⟩ | ⟨hne, time, htime, ⟨hrising, hok⟩ |
    ⟨hfalling, hlt, hok⟩ | ⟨-, -, rest, hrest, hok⟩⟩
  · -- the cap leaves room for two more samples
    exact absurd hover (Phase.Within.not_overflows h (by decide))
  · exact ⟨_, _, hok, h⟩
  · unfold Sound at h
    rw [hrising] at h
    exact ⟨_, _, hok, h.advance_first htime fun hstay => of_decide_eq_true hstay⟩
  · unfold Sound at h
    rw [hfalling] at h
    refine ⟨_, _, hok, ?_⟩
    show Phase.Within _ _ s.rising
    rw [hfalling]
    exact h.advance_second hlt
  · exact ⟨_, _, hok, h.wrapped hne hrest⟩

theorem Noise.bounded_performed {s : Noise} (h : s.amplitude.envelope.Bounded) (action : Action) :
    (s.performed action).amplitude.envelope.Bounded := by
  cases action with
  | noteOn note velocity => exact Amplitude.bounded_begun h velocity
  | noteOff => exact Amplitude.bounded_stop h
  | configureEnvelope params => exact h.withParams params
  | envelopeOn => exact ⟨h.factor_le, h.attack_le, h.sustain_le⟩
  | envelopeOff => exact ⟨h.factor_le, h.attack_le, h.sustain_le⟩
  | setDuty duty => exact h
  | configureVibrato params => exact h
  | vibratoOn => exact h
  | vibratoOff => exact h

theorem Noise.bounded_next {ρ : Type} [BitSource ρ] {s : Noise} (h : s.amplitude.envelope.Bounded)
    (source : ρ) : ∃ x s' source', s.next source = .ok (x, s', source') ∧
      s'.amplitude.envelope.Bounded := by
  rcases next_cases s source with ⟨-, hok⟩ | ⟨-, hok⟩
  · exact ⟨_, _, _, hok, Amplitude.bounded_refresh h⟩
  · exact ⟨_, _, _, hok, h⟩

theorem Noise.modulateEnvelope_of_bounded {s : Noise} (h : s.amplitude.envelope.Bounded) :
    ∃ envelope, s.modulateEnvelope = .ok { s with amplitude := { s.amplitude with envelope } } ∧
      envelope.Bounded := by
  obtain ⟨envelope, hok, hbounded⟩ := Amplitude.modulate_of_bounded h
  exact ⟨envelope, modulateEnvelope_eq_ok.2 ⟨_, hok, rfl⟩, hbounded⟩

/-! ## Sound synthesizers -/

namespace Synth

variable {ρ : Type}

/-- Everything but the periods of the squares is in range. -/
structure Sound (s : Synth ρ) : Prop where
  tuning : s.tuning.Bounded
  square : ∀ side, (s.square side).Sound
  triangle : s.triangle.Sound
  noise : s.noise.amplitude.envelope.Bounded
  ring : s.ring.Sound

/-- A move leaves the word: a modulation tick through a period, a sample through
a phase. -/
def Overflows (s : Synth ρ) : Move → Prop
  | .modulate => ∃ side, (s.square side).PeriodOverflows
  | .mix => ∃ side, (s.square side).phase.Overflows
  | .tick => s.ring.isFull = false ∧ ∃ side, (s.square side).phase.Overflows
  | .command _ | .pop => False

theorem sound_tuned {t : Tuning} (ht : t.Bounded) (source : ρ) : (tuned t source).Sound where
  tuning := ht
  square := fun side => by
    cases side with
    | a => exact Square.sound_fresh 64
    | b => exact Square.sound_fresh 127
  triangle := Triangle.sound_fresh 32
  noise := Envelope.bounded_fresh
  ring := SampleRing.sound_empty (by decide)

theorem Sound.withRing {s : Synth ρ} (h : s.Sound) {ring : SampleRing ringCapacity}
    (hring : ring.Sound) : (s.withRing ring).Sound where
  tuning := h.tuning
  square := fun side => by
    rw [square_withRing]
    exact h.square side
  triangle := h.triangle
  noise := h.noise
  ring := hring

theorem Sound.applied {s : Synth ρ} (h : s.Sound) (c : Command) : (s.applied c).Sound where
  tuning := h.tuning
  square := fun side => by
    rw [applied_square]
    cases c.actionFor side.channel with
    | none => exact h.square side
    | some action => exact (h.square side).performed s.tuning action
  triangle := by
    show (((c.actionFor .triangle).map (s.triangle.performed s.tuning)).getD s.triangle).Sound
    cases c.actionFor .triangle with
    | none => exact h.triangle
    | some action => exact h.triangle.performed h.tuning action
  noise := by
    show (((c.actionFor .noise).map s.noise.performed).getD
      s.noise).amplitude.envelope.Bounded
    cases c.actionFor .noise with
    | none => exact h.noise
    | some action => exact Noise.bounded_performed h.noise action
  ring := h.ring

theorem Sound.modulate {s : Synth ρ} (h : s.Sound) :
    (s.Overflows .modulate ∧ s.modulate = .error .addOverflow) ∨
    (¬ s.Overflows .modulate ∧ ∃ s', s.modulate = .ok s' ∧ s'.Sound) := by
  unfold Synth.modulate
  rcases (h.square .a).modulateVibrato with ⟨hover, herror⟩ | ⟨hnotA, a, hokA, ha⟩
  · refine Or.inl ⟨⟨.a, hover⟩, ?_⟩
    rw [show s.squareA.modulateVibrato = _ from herror]
    rfl
  · rw [show s.squareA.modulateVibrato = _ from hokA]
    rcases (h.square .b).modulateVibrato with ⟨hover, herror⟩ | ⟨hnotB, b, hokB, hb⟩
    · refine Or.inl ⟨⟨.b, hover⟩, ?_⟩
      rw [show s.squareB.modulateVibrato = _ from herror]
      rfl
    · rw [show s.squareB.modulateVibrato = _ from hokB]
      -- the envelopes come after both vibratos
      obtain ⟨envelopeA, hmodA, hboundedA⟩ := Square.modulateEnvelope_of_bounded ha.bounded
      obtain ⟨envelopeB, hmodB, hboundedB⟩ := Square.modulateEnvelope_of_bounded hb.bounded
      obtain ⟨envelope, hmod, hbounded⟩ := Noise.modulateEnvelope_of_bounded h.noise
      refine Or.inr ⟨?_, ?_⟩
      · rintro ⟨_ | _, hover⟩
        · exact hnotA hover
        · exact hnotB hover
      simp only [bind, Except.bind, hmodA, hmodB, hmod]
      refine ⟨_, rfl, h.tuning, ?_, h.triangle, hbounded, h.ring⟩
      rintro (_ | _)
      · exact ⟨ha.hasPlace, hboundedA⟩
      · exact ⟨hb.hasPlace, hboundedB⟩

variable [BitSource ρ]

theorem Sound.mix {s : Synth ρ} (h : s.Sound) :
    (s.Overflows .mix ∧ s.mix = .error .addOverflow) ∨
    (¬ s.Overflows .mix ∧ ∃ x s', s.mix = .ok (x, s') ∧ s'.Sound ∧ s'.ring = s.ring) := by
  unfold Synth.mix
  rcases (h.square .a).next with ⟨hover, herror⟩ | ⟨hnotA, xa, a, hokA, ha⟩
  · refine Or.inl ⟨⟨.a, hover⟩, ?_⟩
    rw [show s.squareA.next = _ from herror]
    rfl
  · rw [show s.squareA.next = _ from hokA]
    rcases (h.square .b).next with ⟨hover, herror⟩ | ⟨hnotB, xb, b, hokB, hb⟩
    · refine Or.inl ⟨⟨.b, hover⟩, ?_⟩
      rw [show s.squareB.next = _ from herror]
      rfl
    · rw [show s.squareB.next = _ from hokB]
      -- the triangle and the noise never fail
      obtain ⟨xt, t, hokT, ht⟩ := h.triangle.next
      obtain ⟨xn, n, source, hokN, hn⟩ := Noise.bounded_next h.noise s.source
      refine Or.inr ⟨?_, ?_⟩
      · rintro ⟨_ | _, hover⟩
        · exact hnotA hover
        · exact hnotB hover
      simp only [bind, Except.bind, hokT, hokN]
      refine ⟨_, _, rfl, ⟨h.tuning, ?_, ht, hn, h.ring⟩, rfl⟩
      rintro (_ | _)
      · exact ha
      · exact hb

theorem Sound.tick {s : Synth ρ} (h : s.Sound) (hroom : s.ring.length < ringCapacity) :
    (s.Overflows .mix ∧ s.tick = .error .addOverflow) ∨
    (¬ s.Overflows .mix ∧ ∃ s', s.tick = .ok s' ∧ s'.Sound) := by
  unfold Synth.tick
  rcases h.mix with ⟨hover, herror⟩ | ⟨hnot, x, s', hok, hs', hring⟩
  · rw [herror]
    exact Or.inl ⟨hover, rfl⟩
  · rw [← hring] at hroom
    obtain ⟨ring, hpush, hsound, -⟩ := SampleRing.push_contents hs'.ring hroom x
    refine Or.inr ⟨hnot, ?_⟩
    simp only [hok, bind, Except.bind, hpush]
    exact ⟨_, rfl, hs'.withRing hsound⟩

/-- A move of a sound synthesizer overflows, or it leads to a sound one. -/
theorem Sound.move {s : Synth ρ} (h : s.Sound) (m : Move) :
    (s.Overflows m ∧ s.move m = .error .addOverflow) ∨
    (¬ s.Overflows m ∧ ∃ s', s.move m = .ok s' ∧ s'.Sound) := by
  cases m with
  | command c => exact Or.inr ⟨id, s.applied c, apply_eq s c, h.applied c⟩
  | modulate => exact h.modulate
  | mix =>
    unfold Synth.move
    rcases h.mix with ⟨hover, herror⟩ | ⟨hnot, x, s', hok, hs', -⟩
    · rw [herror]
      exact Or.inl ⟨hover, rfl⟩
    · rw [hok]
      exact Or.inr ⟨hnot, s', rfl, hs'⟩
  | tick =>
    unfold Synth.move
    cases hfull : s.ring.isFull with
    | true => exact Or.inr ⟨fun hover => absurd (hfull.symm.trans hover.1) (by decide), s, rfl, h⟩
    | false =>
      have hroom : s.ring.length < ringCapacity := by
        have hle := h.ring.length_le
        have hne : s.ring.length ≠ ringCapacity := beq_eq_false_iff_ne.1 hfull
        omega
      rcases h.tick hroom with ⟨hover, herror⟩ | ⟨hnot, hok⟩
      · exact Or.inl ⟨⟨hfull, hover⟩, herror⟩
      · exact Or.inr ⟨fun hover => hnot hover.2, hok⟩
  | pop =>
    unfold Synth.move
    cases hempty : s.ring.isEmpty with
    | true => exact Or.inr ⟨id, s, rfl, h⟩
    | false =>
      have hne : s.ring.length ≠ 0 :=
        mt (SampleRing.isEmpty_iff _).2 (Bool.eq_false_iff.1 hempty)
      obtain ⟨x, ring, hpop, hsound, -⟩ := SampleRing.pop_contents h.ring hne
      refine Or.inr ⟨id, ?_⟩
      unfold Synth.pop
      rw [hpop]
      exact ⟨_, rfl, h.withRing hsound⟩

theorem Sound.run {s s' : Synth ρ} (h : s.Sound) {moves : List Move}
    (hrun : s.run moves = .ok s') : s'.Sound := by
  refine run_keeps (fun s s' m hs hmove => ?_) h hrun
  rcases hs.move m with ⟨-, herror⟩ | ⟨-, s'', hok, hs''⟩
  · rw [hmove] at herror
    cases herror
  · rw [hmove] at hok
    cases hok
    exact hs''

/-- The only faults of a run are the two overflows. -/
theorem Sound.run_eq_error {s : Synth ρ} (h : s.Sound) {moves : List Move} {f : Fault} :
    s.run moves = .error f ↔ f = .addOverflow ∧ ∃ first m rest s',
      moves = first ++ m :: rest ∧ s.run first = .ok s' ∧ s'.Overflows m := by
  rw [Synth.run_eq_error]
  constructor
  · rintro ⟨first, m, rest, s', hmoves, hfirst, hfault⟩
    rcases (h.run hfirst).move m with ⟨hover, herror⟩ | ⟨-, s'', hok, -⟩
    · rw [hfault] at herror
      exact ⟨Except.error.inj herror, first, m, rest, s', hmoves, hfirst, hover⟩
    · rw [hfault] at hok
      cases hok
  · rintro ⟨rfl, first, m, rest, s', hmoves, hfirst, hover⟩
    rcases (h.run hfirst).move m with ⟨-, herror⟩ | ⟨hnot, -⟩
    · exact ⟨first, m, rest, s', hmoves, hfirst, herror⟩
    · exact absurd hover hnot

end Synth

/-! ## Runs without a fault -/

/-- A product of fixed-point numbers, cut to the word, is not above the exact one. -/
theorem Fixed.toNat_cut_le {w : UInt64} {n : Nat} (h : w.toNat ≤ n) :
    (w >>> 16).toUInt32.toNat ≤ n / 65536 := by
  have hshift : (w >>> 16).toNat = w.toNat / 65536 := by
    rw [UInt64.toNat_shiftRight, Nat.shiftRight_eq_div_pow]
    rfl
  rw [UInt64.toNat_toUInt32, hshift]
  exact Nat.le_trans (Nat.mod_le _ _) (Nat.div_le_div_right h)

theorem Fixed.units_mul_le (a b : Fixed) : (a.mul b).units ≤ a.units * b.units / 65536 := by
  refine toNat_cut_le ?_
  rw [UInt64.toNat_mul, UInt32.toNat_toUInt64, UInt32.toNat_toUInt64]
  exact Nat.mod_le _ _

namespace Vibrato

/-- The deepest vibrato adds less than a seventh of the period. -/
theorem units_depthRatio_le (depth : UInt8) : (depthRatio depth).units ≤ 9379 := by
  have hdepth := depth.toNat_lt
  have hproduct : (depth.toUInt64 * centRatio).toNat ≤ depth.toNat * 2410580 := by
    rw [UInt64.toNat_mul, UInt8.toNat_toUInt64]
    exact Nat.mod_le _ _
  refine Nat.le_trans (Fixed.toNat_cut_le hproduct) ?_
  omega

theorem steps_mul_delta_le (params : VibratoParams) {base : Fixed}
    (hbase : base.units ≤ 23500 * 65536) :
    params.steps.toNat * (around params base).delta.units ≤ 220406500 := by
  have hratio := units_depthRatio_le params.depth
  have hdelta : (around params base).delta.units =
      (base.mul (depthRatio params.depth)).units / params.steps.toNat := UInt32.toNat_div _ _
  have hproduct : base.units * (depthRatio params.depth).units ≤ 23500 * 65536 * 9379 :=
    Nat.mul_le_mul hbase hratio
  have hmul := Fixed.units_mul_le base (depthRatio params.depth)
  rw [hdelta]
  refine Nat.le_trans (Nat.mul_div_le _ _) ?_
  omega

/-- The vibrato began at a period not above its base, so all of its way up is
ahead of the base. -/
def Confined (v : Vibrato) (period : Fixed) : Prop :=
  ∃ steps place, v.At steps place ∧ v.base.units ≤ 23500 * 65536 ∧
    steps * v.delta.units ≤ 220406500 ∧
    period.units ≤ v.base.units + min place steps * v.delta.units

theorem confined_around (params : VibratoParams) {base period : Fixed}
    (hbase : base.units ≤ 23500 * 65536) (hperiod : period.units ≤ base.units) :
    (around params base).Confined period :=
  ⟨_, _, at_around params base, hbase, steps_mul_delta_le params hbase,
    Nat.le_trans hperiod (Nat.le_add_right _ _)⟩

theorem Confined.period_le {v : Vibrato} {period : Fixed} (h : v.Confined period) :
    period.units ≤ 1760502500 := by
  obtain ⟨steps, place, -, hbase, hdelta, hperiod⟩ := h
  have hle : min place steps * v.delta.units ≤ steps * v.delta.units :=
    Nat.mul_le_mul_right _ (Nat.min_le_right _ _)
  omega

/-- A confined vibrato stays confined, and its period does not overflow. -/
theorem Confined.swings {v : Vibrato} {period period' : Fixed} {steps place : Nat}
    (h : v.Confined period) (hat : v.At steps place) (hswings : v.Swings steps place period period')
    {time : Fixed} {rising : Bool}
    (hat' : At { v with time, rising } steps ((place + 1) % (2 * steps))) :
    Confined { v with time, rising } period' := by
  obtain ⟨steps', place', hat'', hbase, hdelta, hperiod⟩ := h
  obtain ⟨rfl, rfl⟩ := hat.unique hat''
  refine ⟨steps', _, hat', hbase, hdelta, ?_⟩
  show period'.units ≤ v.base.units + min ((place' + 1) % (2 * steps')) steps' * v.delta.units
  -- the height above the base is at most one delta for each step up, and the
  -- falling half takes off from the full height
  rcases hswings with ⟨hrise, hunits⟩ | ⟨hfall, hless, rfl⟩ | ⟨-, rfl⟩
  · rw [Nat.mod_eq_of_lt (by omega), Nat.min_eq_left (by omega), Nat.succ_mul]
    rw [Nat.min_eq_left (by omega)] at hperiod
    omega
  · rw [Nat.mod_eq_of_lt (by omega), Nat.min_eq_right (by omega), Fixed.units_monus]
    rw [Nat.min_eq_right (by omega)] at hperiod
    omega
  · exact Nat.le_add_right _ _

end Vibrato

/-- The action starts the vibrato of a square. -/
def Action.startsVibrato : Action → Bool
  | .configureVibrato _ | .vibratoOn => true
  | .noteOn _ _ | .noteOff | .setDuty _ | .vibratoOff | .configureEnvelope _ | .envelopeOn
  | .envelopeOff => false

namespace Square

/-- A vibrato that starts does so at a period not above that of the note. -/
def Centred (s : Square) (t : Tuning) (action : Action) : Prop :=
  action.startsVibrato = true → s.phase.period ≤ t.period s.note

/-- The period of the square stays within the reach of one vibrato. -/
structure Steady (s : Square) : Prop where
  phase : s.phase.Within 1760502500 (!s.isHigh)
  confined : s.vibrato.enabled = true → s.vibrato.Confined s.phase.period

theorem steady_fresh (duty : UInt8) : (fresh duty).Steady :=
  ⟨Phase.within_idle duty (by decide) _, (fun h => nomatch h)⟩

theorem Steady.performed {s : Square} (h : s.Steady) {t : Tuning} (ht : t.Bounded) {action : Action}
    (hcentred : s.Centred t action) : (s.performed t action).Steady := by
  cases action with
  | noteOn note velocity =>
    refine ⟨Phase.within_start _ (by decide) (Nat.le_trans (ht note) (by decide)),
      fun hstill => ?_⟩
    have hvibrato : (s.performed t (.noteOn note velocity)).vibrato =
        if s.vibrato.enabled then Vibrato.around s.vibrato.params (t.period note)
        else s.vibrato := rfl
    by_cases henabled : s.vibrato.enabled = true
    · rw [hvibrato, if_pos henabled]
      exact Vibrato.confined_around _ (ht note) (Nat.le_refl _)
    · rw [hvibrato, if_neg henabled] at hstill
      exact absurd hstill henabled
  | noteOff => exact ⟨h.phase, h.confined⟩
  | setDuty duty => exact ⟨h.phase.withDuty duty, h.confined⟩
  | configureVibrato params =>
    exact ⟨h.phase, fun _ =>
      Vibrato.confined_around _ (ht s.note) (Fixed.le_iff_units.1 (hcentred rfl))⟩
  | vibratoOn =>
    exact ⟨h.phase, fun _ =>
      Vibrato.confined_around _ (ht s.note) (Fixed.le_iff_units.1 (hcentred rfl))⟩
  | vibratoOff =>
    exact ⟨h.phase.withPeriod (Nat.le_trans (ht s.note) (by decide)), (fun hoff => nomatch hoff)⟩
  | configureEnvelope params => exact ⟨h.phase, h.confined⟩
  | envelopeOn => exact ⟨h.phase, h.confined⟩
  | envelopeOff => exact ⟨h.phase, h.confined⟩

theorem Steady.not_periodOverflows {s : Square} (h : s.Steady) : ¬ s.PeriodOverflows := by
  rintro ⟨henabled, hrising, hover⟩
  -- a rising vibrato has a step left, and that step is within its reach
  obtain ⟨steps, place, hat, hbase, hdelta, hperiod⟩ := h.confined henabled
  have hrise : place < steps := by
    rw [hat.rising_eq] at hrising
    exact of_decide_eq_true hrising
  have hle : (place + 1) * s.vibrato.delta.units ≤ steps * s.vibrato.delta.units :=
    Nat.mul_le_mul_right _ hrise
  rw [Nat.succ_mul] at hle
  rw [Nat.min_eq_left (Nat.le_of_lt hrise)] at hperiod
  unfold Fixed.AddOverflows at hover
  omega

theorem Steady.modulateVibrato {s s' : Square} (h : s.Steady) (hs : s.HasPlace)
    (hok : s.modulateVibrato = .ok s') : s'.Steady := by
  rcases modulateVibrato_cases hs with ⟨-, herror⟩ | ⟨-, hsame⟩ |
    ⟨henabled, -, steps, place, period, time, rising, hat, hat', hswings, hok'⟩
  · rw [hok] at herror
    cases herror
  · rw [hok] at hsame
    cases hsame
    exact h
  · rw [hok] at hok'
    cases hok'
    have hconfined := (h.confined henabled).swings hat hswings hat'
    exact ⟨h.phase.withPeriod hconfined.period_le, fun _ => hconfined⟩

theorem Steady.modulateEnvelope {s s' : Square} (h : s.Steady)
    (hok : s.modulateEnvelope = .ok s') : s'.Steady := by
  obtain ⟨amplitude, -, hsame⟩ := bind_eq_ok.1 hok
  cases hsame
  exact ⟨h.phase, h.confined⟩

theorem Steady.next {s s' : Square} {x : Int16} (h : s.Steady) (hok : s.next = .ok (x, s')) :
    s'.Steady := by
  have hphase := h.phase
  rcases next_cases s with ⟨-, herror⟩ | ⟨-, hsame⟩ | ⟨hne, time, htime, ⟨hlow, hok'⟩ |
    ⟨hhigh, hlt, hok'⟩ | ⟨-, -, rest, hrest, hok'⟩⟩
  · rw [hok] at herror
    cases herror
  · rw [hok] at hsame
    cases hsame
    exact h
  · rw [hok] at hok'
    cases hok'
    rw [hlow] at hphase
    refine ⟨hphase.advance_first htime fun hstay => ?_, h.confined⟩
    have hedge : ¬ s.phase.edge ≤ time := by simpa using hstay
    rw [Fixed.le_iff_units] at hedge
    exact Fixed.lt_iff_units.2 (Nat.not_le.1 hedge)
  · rw [hok] at hok'
    cases hok'
    refine ⟨?_, h.confined⟩
    show Phase.Within _ _ (!s.isHigh)
    rw [hhigh] at hphase ⊢
    exact hphase.advance_second hlt
  · rw [hok] at hok'
    cases hok'
    exact ⟨hphase.wrapped hne hrest, h.confined⟩

end Square

namespace Synth

variable {ρ : Type}

/-- A vibrato that the move starts does so at a period not above that of the
note. -/
def Centred (s : Synth ρ) : Move → Prop
  | .command c => ∀ side action, c.actionFor side.channel = some action →
      (s.square side).Centred s.tuning action
  | .modulate | .mix | .tick | .pop => True

/-- A sound synthesizer with steady squares. -/
structure Steady (s : Synth ρ) : Prop where
  sound : s.Sound
  square : ∀ side, (s.square side).Steady

theorem steady_tuned {t : Tuning} (ht : t.Bounded) (source : ρ) : (tuned t source).Steady where
  sound := sound_tuned ht source
  square := fun side => by
    cases side with
    | a => exact Square.steady_fresh 64
    | b => exact Square.steady_fresh 127

theorem Steady.not_overflows {s : Synth ρ} (h : s.Steady) (m : Move) : ¬ s.Overflows m := by
  have hphase (side : Side) : ¬ (s.square side).phase.Overflows :=
    (h.square side).phase.not_overflows (by decide)
  cases m with
  | command c => exact id
  | pop => exact id
  | modulate =>
    rintro ⟨side, hover⟩
    exact (h.square side).not_periodOverflows hover
  | mix =>
    rintro ⟨side, hover⟩
    exact hphase side hover
  | tick =>
    rintro ⟨-, side, hover⟩
    exact hphase side hover

variable [BitSource ρ]

/-- A centred move of a steady synthesizer leads to a steady one. -/
theorem Steady.move {s : Synth ρ} (h : s.Steady) {m : Move} (hm : s.Centred m) :
    ∃ s', s.move m = .ok s' ∧ s'.Steady := by
  rcases h.sound.move m with ⟨hover, -⟩ | ⟨-, s', hok, hs'⟩
  · exact absurd hover (h.not_overflows m)
  · refine ⟨s', hok, hs', fun side => ?_⟩
    rcases move_square hok side with ⟨-, x, hnext⟩ | ⟨-, q, hvibrato, henvelope⟩ |
      ⟨c, action, rfl, haction, hsquare⟩ | hsame
    · exact (h.square side).next hnext
    · exact ((h.square side).modulateVibrato (h.sound.square side).hasPlace
        hvibrato).modulateEnvelope henvelope
    · rw [hsquare]
      exact (h.square side).performed h.sound.tuning (hm side action haction)
    · rw [hsame]
      exact h.square side

/-- A run in which every vibrato starts centred does not fault. -/
theorem Steady.run {s : Synth ρ} (h : s.Steady) {moves : List Move}
    (hcentred : ∀ first m rest s', moves = first ++ m :: rest → s.run first = .ok s' →
      s'.Centred m) : ∃ s', s.run moves = .ok s' := by
  induction moves generalizing s with
  | nil => exact ⟨s, rfl⟩
  | cons m moves ih =>
    obtain ⟨s₁, hmove, h₁⟩ := h.move (hcentred [] m moves s rfl rfl)
    have hrest : ∃ s', s₁.run moves = .ok s' := by
      refine ih h₁ fun first m' rest s' hmoves hfirst => ?_
      refine hcentred (m :: first) m' rest s' ?_ (run_cons_eq_ok.2 ⟨s₁, hmove, hfirst⟩)
      rw [hmoves]
      rfl
    obtain ⟨s', hrun⟩ := hrest
    exact ⟨s', run_cons_eq_ok.2 ⟨s₁, hmove, hrun⟩⟩

end Synth

end Chiptune
