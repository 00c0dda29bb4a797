import Chiptune.Proofs.Limits

/-!
# Levels with an envelope

Modulation ticks move the factor of an envelope, and cycles of the voice take it:
each wrap of a square and each reload of the noise opens a cycle, and only there the
levels change. The mark between the two clocks says that the factor has moved since
the last opening.

A move that samples the voice is heard with the level of the moment (`hear_of_samples`),
and any other leaves the levels alone (`amplitude_of_not_samples`). While a note with
an envelope lasts, the levels are those of the factor at the last opening, and the
factor is still that one unless it is marked as pending (`Amplitude.InStep`). Every
move keeps this, with the factor of the moment at an opening, so all samples of a cycle
have the level of the factor that opened it (`levels_follow_envelope`): no factor is
lost, and none comes in the middle of a cycle.
-/

set_option autoImplicit false

namespace Chiptune

/-! ## Scaled levels as rounded products -/

theorem Fixed.units_mul (a b : Fixed) :
    (a.mul b).units = a.units * b.units / 65536 % 4294967296 := by
  have ha := a.units_lt
  have hb := b.units_lt
  have hproduct : (a.raw.toUInt64 * b.raw.toUInt64).toNat = a.units * b.units := by
    rw [UInt64.toNat_mul, UInt32.toNat_toUInt64, UInt32.toNat_toUInt64]
    apply Nat.mod_eq_of_lt
    exact Nat.lt_of_lt_of_le (Nat.mul_lt_mul'' ha hb) (by decide)
  have hshift : ((a.raw.toUInt64 * b.raw.toUInt64) >>> 16).toNat = a.units * b.units / 65536 := by
    rw [UInt64.toNat_shiftRight, hproduct, Nat.shiftRight_eq_div_pow]
    rfl
  simp only [mul, units, UInt64.toNat_toUInt32] at hshift ⊢
  rw [hshift]

namespace Amplitude

/-- The scaled level of a velocity is the nearest integer, halves going up. -/
theorem toInt_scaledLevel (velocity : UInt8) {factor : Fixed} (h : factor.units ≤ 65536) :
    (scaledLevel (levelFor velocity) factor).toInt =
      ((32 * velocity.toNat * factor.units + 32768) / 65536 : Nat) := by
  have hvelocity := velocity.toNat_lt
  have habs : (levelFor velocity).toInt.natAbs = 32 * velocity.toNat := by
    rw [toInt_levelFor]
    omega
  have hword : (32 * velocity.toNat).toUInt16.toNat = 32 * velocity.toNat := by
    rw [Nat.toUInt16_eq, UInt16.toNat_ofNat']
    apply Nat.mod_eq_of_lt
    omega
  have hle : 32 * velocity.toNat * factor.units ≤ 8160 * 65536 := Nat.mul_le_mul (by omega) h
  have hunits : ((Fixed.ofInteger (32 * velocity.toNat).toUInt16).mul factor).units =
      32 * velocity.toNat * factor.units := by
    rw [Fixed.units_mul, Fixed.units_ofInteger, hword, Nat.mul_right_comm,
      Nat.mul_div_cancel _ (by decide)]
    apply Nat.mod_eq_of_lt
    omega
  have hinteger := Fixed.toNat_toInteger
    ((Fixed.ofInteger (32 * velocity.toNat).toUInt16).mul factor)
  rw [hunits] at hinteger
  simp only [scaledLevel, habs]
  rw [toInt_toInt16 (by omega), hinteger]
  congr 1
  omega

end Amplitude

/-- A step that leaves nothing pending has left the envelope as it was. -/
theorem Envelope.step_settled {e e' : Envelope} (hok : e.step = .ok e')
    (hsettled : e'.pending = false) : e' = e := by
  cases tick_of_step hok
  case rest => rfl
  -- every other tick moves the factor and marks it
  all_goals cases hsettled

/-- The action neither starts a note nor disables the envelope. -/
def Action.keepsNote : Action → Bool
  | .noteOn _ _ | .envelopeOff => false
  | .noteOff | .setDuty _ | .configureVibrato _ | .vibratoOn | .vibratoOff
  | .configureEnvelope _ | .envelopeOn => true

/-- The move neither starts a note of a voice nor disables its envelope. -/
def Move.KeepsNote (v : Switching) (m : Move) : Prop :=
  ∀ action, m.actionFor v.channel = some action → action.keepsNote = true

/-! ## Levels in step with an envelope -/

namespace Amplitude

/-- A sample has one of the two levels. -/
def Emits (a : Amplitude) (x : Int16) : Prop := x = a.high ∨ x = a.low

/-- The levels of a note are those of the factor at the last opening of a cycle, and
the factor is still the same if nothing is pending. -/
structure InStep (a : Amplitude) (velocity : UInt8) (opening : Fixed) : Prop where
  limited : a.Limited
  enabled : a.envelope.enabled = true
  limit_eq : a.limit = levelFor velocity
  high_eq : a.high = scaledLevel (levelFor velocity) opening
  low_eq : a.low = -scaledLevel (levelFor velocity) opening
  opening_le : opening.units ≤ 65536
  settled : a.envelope.pending = false → a.envelope.factor = opening

/-- A note with an envelope starts silent, and a factor of zero is pending. -/
theorem inStep_begun {a : Amplitude} (h : a.Limited) (henabled : a.envelope.enabled = true)
    (velocity : UInt8) : (a.begun velocity).InStep velocity Fixed.zero := by
  have hzero : scaledLevel (levelFor velocity) Fixed.zero = 0 := by
    apply Int16.toInt_inj.1
    rw [toInt_scaledLevel velocity (Nat.zero_le _), Fixed.units_zero, Nat.mul_zero]
    rfl
  have hbegun : a.begun velocity =
      { limit := levelFor velocity, high := 0, low := 0, envelope := a.envelope.trigger } :=
    if_pos henabled
  have hlimited := h.begun velocity
  rw [hbegun] at hlimited ⊢
  exact ⟨hlimited, henabled, rfl, hzero.symm, by rw [hzero]; rfl, Nat.zero_le _, fun _ => rfl⟩

section InStep

variable {a a' : Amplitude} {velocity : UInt8} {opening : Fixed}

/-- Both levels have the magnitude of the rounded product. -/
theorem InStep.natAbs_of_emits (h : a.InStep velocity opening) {x : Int16} (hx : a.Emits x) :
    x.toInt.natAbs = (32 * velocity.toNat * opening.units + 32768) / 65536 := by
  have hlevel := toInt_scaledLevel velocity h.opening_le
  rcases hx with rfl | rfl
  · rw [h.high_eq, hlevel, Int.natAbs_natCast]
  · rw [h.low_eq, natAbs_toInt_neg, hlevel, Int.natAbs_natCast]

/-- The opening of a cycle brings the levels up to the factor. -/
theorem InStep.refresh (h : a.InStep velocity opening) :
    a.refresh.InStep velocity a.envelope.factor := by
  have hlimited := h.limited.refresh
  have hle := h.limited.bounded.factor_le
  rcases a.refresh_cases with ⟨hpending, hsame⟩ | ⟨-, htaken⟩
  · -- nothing has moved since the last opening, so the levels are right already
    rw [hsame, h.settled hpending]
    exact h
  · rw [htaken] at hlimited ⊢
    have hlevel : a.taken.high = scaledLevel (levelFor velocity) a.envelope.factor := by
      rw [← h.limit_eq]
      rfl
    exact ⟨hlimited, h.enabled, h.limit_eq, hlevel, congrArg Neg.neg hlevel, hle, fun _ => rfl⟩

/-- A modulation tick leaves the levels alone, and marks the factor if it moves it. -/
theorem InStep.modulate (h : a.InStep velocity opening) (hok : a.modulate = .ok a') :
    a'.InStep velocity opening := by
  have hlimited := h.limited.modulate hok
  obtain ⟨factor, stage, pending, hstep, -⟩ := h.limited.bounded.step
  rw [modulate_of_enabled h.enabled, hstep] at hok
  cases hok
  refine ⟨hlimited, h.enabled, h.limit_eq, h.high_eq, h.low_eq, h.opening_le, ?_⟩
  intro hsettled
  have hsame := Envelope.step_settled hstep hsettled
  have hfactor : factor = a.envelope.factor := congrArg Envelope.factor hsame
  have hpending : pending = a.envelope.pending := congrArg Envelope.pending hsame
  have hunmarked : a.envelope.pending = false := hpending.symm.trans hsettled
  exact hfactor.trans (h.settled hunmarked)

/-- An action that neither starts a note nor disables the envelope leaves the levels and
the factor alone. -/
theorem InStep.performed (h : a.InStep velocity opening) {action : Action}
    (hkeeps : action.keepsNote = true) : (a.performed action).InStep velocity opening := by
  have hlimited := h.limited.performed action
  cases action with
  | noteOn note velocity => cases hkeeps
  | envelopeOff => cases hkeeps
  | noteOff =>
    have hstop : a.stop = { a with envelope := a.envelope.release } := if_pos h.enabled
    simp only [Amplitude.performed, hstop] at hlimited ⊢
    exact ⟨hlimited, h.enabled, h.limit_eq, h.high_eq, h.low_eq, h.opening_le, h.settled⟩
  | configureEnvelope params =>
    exact ⟨hlimited, h.enabled, h.limit_eq, h.high_eq, h.low_eq, h.opening_le, h.settled⟩
  | envelopeOn =>
    exact ⟨hlimited, rfl, h.limit_eq, h.high_eq, h.low_eq, h.opening_le, h.settled⟩
  | setDuty duty => exact h
  | configureVibrato params => exact h
  | vibratoOn => exact h
  | vibratoOff => exact h

end InStep

end Amplitude

/-! ## What a move does to the levels of a voice -/

theorem Square.amplitude_next {q q' : Square} {x : Int16} (hok : q.next = .ok (x, q')) :
    q'.amplitude = (if q.isHigh && !q'.isHigh then q.amplitude.refresh else q.amplitude) ∧
      q.amplitude.Emits x := by
  rcases q.next_cases with ⟨-, herror⟩ | ⟨-, hsame⟩ | ⟨-, time, -, ⟨hlow, hok'⟩ |
    ⟨hhigh, -, hok'⟩ | ⟨hhigh, -, rest, -, hok'⟩⟩
  · rw [hok] at herror
    cases herror
  · rw [hok] at hsame
    cases hsame
    rw [Bool.and_not_self]
    exact ⟨rfl, Or.inr rfl⟩
  · rw [hok] at hok'
    cases hok'
    rw [hlow, Bool.false_and]
    exact ⟨rfl, Or.inr rfl⟩
  · rw [hok] at hok'
    cases hok'
    simp only [atTime, Bool.and_not_self]
    exact ⟨rfl, Or.inl rfl⟩
  · -- the sample that wraps still has the level of the cycle that ends
    rw [hok] at hok'
    cases hok'
    rw [hhigh]
    exact ⟨rfl, Or.inl rfl⟩

theorem Noise.emits_output (n : Noise) : n.amplitude.Emits n.output := by
  simp only [output, Amplitude.Emits]
  split
  · exact Or.inl rfl
  · exact Or.inr rfl

theorem Noise.amplitude_next {ρ : Type} [BitSource ρ] {n n' : Noise} {source source' : ρ}
    {x : Int16} (hok : n.next source = .ok (x, n', source')) :
    n'.amplitude = (if n.counter = 0 then n.amplitude.refresh else n.amplitude) ∧
      n'.amplitude.Emits x := by
  rcases n.next_cases source with ⟨hzero, hok'⟩ | ⟨hne, hok'⟩
  · -- the sample that draws a bit already has the level of the cycle that it opens
    rw [hok] at hok'
    cases hok'
    rw [if_pos hzero]
    exact ⟨rfl, emits_output _⟩
  · rw [hok] at hok'
    cases hok'
    rw [if_neg hne]
    exact ⟨rfl, emits_output _⟩

namespace Synth

variable {ρ : Type}

theorem amplitude_modulate {s s' : Synth ρ} (hok : s.modulate = .ok s') (v : Switching) :
    (s.amplitude v).modulate = .ok (s'.amplitude v) := by
  obtain ⟨hparts, -⟩ := modulate_iff.1 hok
  have hpart := hparts v.channel
  cases v with
  | square side =>
    simp only [Switching.channel, part_side] at hpart
    obtain ⟨q, hvibrato, henvelope⟩ := Part.modulate_square.1 hpart
    exact Square.amplitude_modulate hvibrato henvelope
  | noise =>
    exact Noise.amplitude_modulate (Part.modulate_noise.1 hpart).1

theorem amplitude_command {s : Synth ρ} {c : Command} {v : Switching} {action : Action}
    (hc : c.actionFor v.channel = some action) :
    (s.applied c).amplitude v = (s.amplitude v).performed action := by
  rw [amplitude_applied hc]
  cases v with
  | square side => exact Square.amplitude_performed _ _ _
  | noise => exact Noise.amplitude_performed _ _

variable [BitSource ρ]

/-- The next sample opens a cycle of a voice: it wraps the phase of a square, or draws
a bit for the noise. -/
def opens (v : Switching) (s : Synth ρ) : Bool :=
  match v with
  | .square side =>
      match (s.square side).next with
      | .ok (_, q) => (s.square side).isHigh && !q.isHigh
      | .error _ => false
  | .noise => s.noise.counter == 0

section Moves

variable {s s' : Synth ρ} {m : Move}

/-- A sample of a voice is one of its levels, before an opening or after it, and the
levels are refreshed exactly at an opening. -/
theorem hear_of_samples (hm : s.Samples m) (hok : s.move m = .ok s') (v : Switching)
    (cycle : Nat) :
    ∃ sound cycle', s.hear v cycle = .ok (sound, cycle') ∧
      cycle' = (if s.opens v then cycle + 1 else cycle) ∧
      s'.amplitude v = (if s.opens v then (s.amplitude v).refresh else s.amplitude v) ∧
      ((sound.cycle = cycle ∧ (s.amplitude v).Emits sound.sample) ∨
        (sound.cycle = cycle' ∧ (s'.amplitude v).Emits sound.sample)) := by
  obtain ⟨x, s₁, hmix, ring', rfl⟩ := move_of_samples hm hok
  obtain ⟨hsquare, ⟨y, hnoise⟩, -⟩ := mix_eq_ok hmix
  cases v with
  | square side =>
    obtain ⟨y, hnext⟩ := hsquare side
    obtain ⟨hamplitude, hemits⟩ := Square.amplitude_next hnext
    simp only [hear, opens, hnext, amplitude, square_withRing, bind, Except.bind, pure,
      Except.pure]
    exact ⟨_, _, rfl, rfl, hamplitude, Or.inl ⟨rfl, hemits⟩⟩
  | noise =>
    obtain ⟨hamplitude, hemits⟩ := Noise.amplitude_next hnoise
    simp only [hear, opens, hnoise, amplitude, beq_iff_eq, bind, Except.bind, pure, Except.pure]
    exact ⟨_, _, rfl, rfl, hamplitude, Or.inr ⟨rfl, hemits⟩⟩

/-- Any other move gives the levels a modulation tick, an action, or nothing. -/
theorem amplitude_of_not_samples (hm : ¬ s.Samples m) (hok : s.move m = .ok s')
    (v : Switching) :
    (m = .modulate ∧ (s.amplitude v).modulate = .ok (s'.amplitude v)) ∨
    (∃ action, m.actionFor v.channel = some action ∧
      s'.amplitude v = (s.amplitude v).performed action) ∨
    (m ≠ .modulate ∧ s'.amplitude v = s.amplitude v) := by
  by_cases htick : m = .modulate
  · subst htick
    exact Or.inl ⟨rfl, amplitude_modulate hok v⟩
  · refine Or.inr ?_
    rcases move_of_not_samples hm hok with ⟨c, rfl, rfl⟩ | ⟨rfl, -⟩ | ⟨ring', rfl⟩
    · cases hc : c.actionFor v.channel with
      | some action => exact Or.inl ⟨action, hc, amplitude_command hc⟩
      | none =>
        refine Or.inr ⟨htick, ?_⟩
        cases v with
        | square side =>
          simp only [amplitude, applied_square, show c.actionFor side.channel = none from hc]
          rfl
        | noise =>
          simp only [amplitude, applied, show c.actionFor .noise = none from hc]
          rfl
    · exact absurd rfl htick
    · refine Or.inr ⟨htick, ?_⟩
      cases v with
      | square side => simp only [amplitude, square_withRing]
      | noise => rfl

end Moves

/-! ## Runs -/

/-- The factors at the openings of the cycles of a run, in order. A fault ends them. -/
def openings (v : Switching) : List Move → Synth ρ → List Fixed
  | [], _ => []
  | m :: moves, s =>
      match s.move m with
      | .error _ => []
      | .ok s' =>
          if s.Samples m ∧ s.opens v then
            (s.amplitude v).envelope.factor :: openings v moves s'
          else openings v moves s'

/-- Every sample of a run has the level of the factor that opened its cycle. -/
theorem heard_of_inStep {v : Switching} {velocity : UInt8} (moves : List Move) {s : Synth ρ}
    {cycle : Nat} {opening : Fixed} (h : (s.amplitude v).InStep velocity opening)
    (hkeeps : ∀ m ∈ moves, m.KeepsNote v) :
    ∀ sound ∈ heard v moves s cycle, ∃ k f, sound.cycle = cycle + k ∧
      (opening :: openings v moves s)[k]? = some f ∧
      sound.sample.toInt.natAbs = (32 * velocity.toNat * f.units + 32768) / 65536 := by
  induction moves generalizing s cycle opening with
  | nil =>
    intro sound hsound
    cases hsound
  | cons m moves ih =>
    have hrest : ∀ m' ∈ moves, m'.KeepsNote v := by
      intro m' hm'
      exact hkeeps m' (List.mem_cons_of_mem m hm')
    intro sound hsound
    cases hok : s.move m with
    | error f =>
      simp only [heard, hok] at hsound
      cases hsound
    | ok s' =>
      by_cases hm : s.Samples m
      · obtain ⟨first, cycle', hhear, hcycle, hamplitude, hfirst⟩ :=
          hear_of_samples hm hok v cycle
        simp only [heard, hok, if_pos hm, hhear] at hsound
        simp only [openings, hok, hm, true_and]
        by_cases hopens : s.opens v = true
        · -- a new cycle: the factor of the moment opens it
          have h' := h.refresh
          rw [if_pos hopens] at hcycle hamplitude
          rw [← hamplitude] at h'
          rw [if_pos hopens]
          rcases List.mem_cons.1 hsound with rfl | hsound
          · rcases hfirst with ⟨hold, hemits⟩ | ⟨hnew, hemits⟩
            · exact ⟨0, opening, hold, rfl, h.natAbs_of_emits hemits⟩
            · exact ⟨1, _, hnew.trans hcycle, rfl, h'.natAbs_of_emits hemits⟩
          · obtain ⟨k, f, hk, hf, hlevel⟩ := ih h' hrest sound hsound
            exact ⟨k + 1, f, by omega, hf, hlevel⟩
        · rw [if_neg hopens] at hcycle hamplitude
          rw [if_neg hopens]
          rw [← hamplitude] at h
          rw [hcycle, ← hamplitude, or_self] at hfirst
          rw [hcycle] at hsound
          rcases List.mem_cons.1 hsound with rfl | hsound
          · exact ⟨0, opening, hfirst.1, rfl, h.natAbs_of_emits hfirst.2⟩
          · exact ih h hrest sound hsound
      · simp only [heard, hok, if_neg hm] at hsound
        simp only [openings, hok, hm, false_and, if_false]
        refine ih ?_ hrest sound hsound
        rcases amplitude_of_not_samples hm hok v with ⟨-, hmodulate⟩ |
          ⟨action, haction, hperformed⟩ | ⟨-, hsame⟩
        · exact h.modulate hmodulate
        · rw [hperformed]
          exact h.performed (hkeeps m List.mem_cons_self action haction)
        · rw [hsame]
          exact h

/-! ## Synthesizers that arise -/

/-- The synthesizers that arise from a silent one by moves and restarts. -/
inductive Reachable : Synth ρ → Prop
  | tuned (t : Tuning) (source : ρ) : Reachable (tuned t source)
  | move {s s' : Synth ρ} {m : Move} : Reachable s → s.move m = .ok s' → Reachable s'
  | restart {s : Synth ρ} (rate : UInt32) : Reachable s → Reachable (s.restart rate)

theorem Reachable.applied {s : Synth ρ} (h : s.Reachable) (c : Command) :
    (s.applied c).Reachable :=
  Reachable.move (m := .command c) h (apply_eq s c)

theorem Reachable.limited {s : Synth ρ} (h : s.Reachable) (c : Channel) :
    (s.part c).Limited := by
  induction h with
  | tuned t source => exact Part.limited_tuned t source c
  | move _ hok ih => exact limited_move c ih hok
  | @restart s rate _ _ =>
    have hfresh := Part.limited_tuned (Tuning.equalTempered rate) s.source c
    rw [← part_withRing _ s.ring.clear] at hfresh
    exact hfresh

theorem Reachable.limited_amplitude {s : Synth ρ} (h : s.Reachable) (v : Switching) :
    (s.amplitude v).Limited := by
  have hpart := h.limited v.channel
  cases v with
  | square side =>
    simp only [Switching.channel, part_side] at hpart
    exact hpart
  | noise => exact hpart

/-- A note that starts with an enabled envelope, and until the next note or until the
envelope is disabled: every sample has the magnitude of the level times the factor at the
opening of its cycle, rounded to the nearest integer. Before the first opening the factor
is zero. So all samples of a cycle have the same magnitude. -/
theorem levels_follow_envelope {s : Synth ρ} (hs : s.Reachable) (v : Switching) (c : Command)
    (note velocity : UInt8) (moves : List Move)
    (henabled : (s.amplitude v).envelope.enabled = true)
    (hc : c.actionFor v.channel = some (.noteOn note velocity))
    (hkeeps : ∀ m ∈ moves, m.KeepsNote v) :
    ∃ s₁, s.apply c = .ok s₁ ∧
      (∀ sound ∈ heard v moves s₁ 0, ∃ f,
        (Fixed.zero :: openings v moves s₁)[sound.cycle]? = some f ∧
        sound.sample.toInt.natAbs = (32 * velocity.toNat * f.units + 32768) / 65536) ∧
      (∀ a ∈ heard v moves s₁ 0, ∀ b ∈ heard v moves s₁ 0, a.cycle = b.cycle →
        a.sample.toInt.natAbs = b.sample.toInt.natAbs) := by
  have hstart : ((s.applied c).amplitude v).InStep velocity Fixed.zero := by
    have hlimited := hs.limited_amplitude v
    rw [amplitude_applied hc]
    cases v with
    | square side => exact Amplitude.inStep_begun hlimited henabled velocity
    | noise => exact Amplitude.inStep_begun hlimited henabled velocity
  have hheard : ∀ sound ∈ heard v moves (s.applied c) 0, ∃ f,
      (Fixed.zero :: openings v moves (s.applied c))[sound.cycle]? = some f ∧
      sound.sample.toInt.natAbs = (32 * velocity.toNat * f.units + 32768) / 65536 := by
    intro sound hsound
    obtain ⟨k, f, hk, hf, hlevel⟩ := heard_of_inStep moves hstart hkeeps sound hsound
    rw [Nat.zero_add] at hk
    rw [hk]
    exact ⟨f, hf, hlevel⟩
  refine ⟨s.applied c, apply_eq s c, hheard, ?_⟩
  intro a ha b hb hcycle
  obtain ⟨f, hf, hfa⟩ := hheard a ha
  obtain ⟨g, hg, hgb⟩ := hheard b hb
  rw [hcycle, hg] at hf
  cases hf
  rw [hfa, hgb]

/-- A square with a period of two samples and the noise with a count of one, each with an
attack of two ticks and a release of one. -/
theorem levels_follow_envelope_for_square_and_noise :
    let s := ((((Synth.tuned ⟨48000, Vector.replicate 128 ⟨131072⟩⟩ (Lfsr.seeded 1)).applied
      (.address 0 (.configureEnvelope ⟨2, 0, 127, 0⟩))).applied (.address 0 .envelopeOn)).applied
      (.address 3 (.configureEnvelope ⟨2, 0, 127, 0⟩))).applied (.address 3 .envelopeOn)
    let moves : List Move := [.mix, .modulate, .mix, .mix, .modulate, .mix, .mix, .mix,
      .command .allNotesOff, .modulate, .mix, .mix]
    s.Reachable ∧
      ((s.amplitude (.square .a)).envelope.enabled = true ∧
        ∃ s₁, s.apply (.address 0 (.noteOn 69 100)) = .ok s₁ ∧
          openings (.square .a) moves s₁ = [⟨32768⟩, ⟨65536⟩, ⟨65536⟩, ⟨0⟩] ∧
          heard (.square .a) moves s₁ 0 = [⟨0, 0⟩, ⟨0, 0⟩, ⟨1, -1600⟩, ⟨1, 1600⟩, ⟨2, -3200⟩,
            ⟨2, 3200⟩, ⟨3, -3200⟩, ⟨3, 3200⟩] ∧
          ∀ sound ∈ heard (.square .a) moves s₁ 0, ∃ f,
            (Fixed.zero :: openings (.square .a) moves s₁)[sound.cycle]? = some f ∧
            sound.sample.toInt.natAbs = (3200 * f.units + 32768) / 65536) ∧
      ((s.amplitude .noise).envelope.enabled = true ∧
        ∃ s₁, s.apply (.address 3 (.noteOn 127 77)) = .ok s₁ ∧
          openings .noise moves s₁ = [⟨32768⟩, ⟨65536⟩, ⟨65536⟩, ⟨0⟩] ∧
          heard .noise moves s₁ 0 = [⟨0, 0⟩, ⟨1, 1232⟩, ⟨1, 1232⟩, ⟨2, -2464⟩, ⟨2, -2464⟩,
            ⟨3, -2464⟩, ⟨3, -2464⟩, ⟨4, 0⟩] ∧
          ∀ sound ∈ heard .noise moves s₁ 0, ∃ f,
            (Fixed.zero :: openings .noise moves s₁)[sound.cycle]? = some f ∧
            sound.sample.toInt.natAbs = (2464 * f.units + 32768) / 65536) := by
  intro s moves
  have hs : s.Reachable := ((((Reachable.tuned _ _).applied _).applied _).applied _).applied _
  have hkeeps (v : Switching) : ∀ m ∈ moves, m.KeepsNote v := by
    intro m hm action haction
    simp only [moves, List.mem_cons, List.not_mem_nil, or_false] at hm
    rcases hm with rfl | rfl | rfl | rfl | rfl | rfl | rfl | rfl | rfl | rfl | rfl | rfl
    all_goals cases haction
    rfl
  refine ⟨hs, ⟨rfl, ?_⟩, ⟨rfl, ?_⟩⟩
  · obtain ⟨s₁, hs₁, hheard, -⟩ := levels_follow_envelope hs (.square .a)
      (.address 0 (.noteOn 69 100)) 69 100 moves rfl rfl (hkeeps _)
    obtain rfl : s.applied (.address 0 (.noteOn 69 100)) = s₁ :=
      Except.ok.inj ((apply_eq _ _).symm.trans hs₁)
    exact ⟨_, hs₁, by decide +kernel, by decide +kernel, hheard⟩
  · obtain ⟨s₁, hs₁, hheard, -⟩ := levels_follow_envelope hs .noise
      (.address 3 (.noteOn 127 77)) 127 77 moves rfl rfl (hkeeps _)
    obtain rfl : s.applied (.address 3 (.noteOn 127 77)) = s₁ :=
      Except.ok.inj ((apply_eq _ _).symm.trans hs₁)
    exact ⟨_, hs₁, by decide +kernel, by decide +kernel, hheard⟩

end Synth

end Chiptune
