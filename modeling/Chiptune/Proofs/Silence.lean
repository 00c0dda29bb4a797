import Chiptune.Proofs.Fading
import Chiptune.Proofs.RingTraces

/-!
# Silence without velocity

A voice runs without ever having played: a vibrato gives a square a period, a duty sets the
ramps of the triangle again, an envelope brings levels up to its factor. All of these scale
what a velocity has set, so a voice whose notes have no velocity stays at zero.

`Part.Mute` says that nothing in a voice is above zero. Actions, modulation ticks and
samples keep it, and a mute voice gives a sample of zero (`Part.Mute.next`). This holds along
whole runs for each channel by itself, and for the mixed samples and the ring if no channel
has a velocity (`silent_without_velocity`).
-/

set_option autoImplicit false

namespace Chiptune

/-- The action starts no note with a velocity. -/
def Action.IsMute : Action → Prop
  | .noteOn _ velocity => velocity = 0
  | .noteOff | .setDuty _ | .configureVibrato _ | .vibratoOn | .vibratoOff
  | .configureEnvelope _ | .envelopeOn | .envelopeOff => True

instance : DecidablePred Action.IsMute
  | .noteOn _ velocity => inferInstanceAs (Decidable (velocity = 0))
  | .noteOff | .setDuty _ | .configureVibrato _ | .vibratoOn | .vibratoOff
  | .configureEnvelope _ | .envelopeOn | .envelopeOff => inferInstanceAs (Decidable True)

/-- The move starts no note with a velocity on the channel. -/
def Move.IsMuteFor (c : Channel) (m : Move) : Prop := ∀ action ∈ m.actionFor c, action.IsMute

instance (c : Channel) (m : Move) : Decidable (m.IsMuteFor c) :=
  inferInstanceAs (Decidable (∀ action ∈ m.actionFor c, action.IsMute))

/-! ## Levels and ramps without velocity -/

namespace Amplitude

/-- No level, and none to come from the envelope. -/
structure Mute (a : Amplitude) : Prop where
  limit_eq : a.limit = 0
  high_eq : a.high = 0
  low_eq : a.low = 0

theorem zero_scaledLevel (factor : Fixed) : scaledLevel 0 factor = 0 := by
  have hmul : (Fixed.ofInteger 0).mul factor = Fixed.zero := by
    apply Fixed.units_inj.1
    rw [Fixed.units_mul, Fixed.units_ofInteger, Fixed.units_zero]
    simp
  show ((Fixed.ofInteger 0).mul factor).toInteger.toInt16 = 0
  rw [hmul]
  rfl

section Mute

variable {a a' : Amplitude}

theorem Mute.eq_zero_of_emits (h : a.Mute) {x : Int16} (hx : a.Emits x) : x = 0 := by
  rcases hx with rfl | rfl
  · exact h.high_eq
  · exact h.low_eq

theorem Mute.refresh (h : a.Mute) : a.refresh.Mute := by
  rcases a.refresh_cases with ⟨-, hsame⟩ | ⟨-, htaken⟩
  · rw [hsame]
    exact h
  · -- any factor of a limit of zero is zero
    have hlevel : a.taken.high = 0 := by simp only [taken, h.limit_eq, zero_scaledLevel]
    rw [htaken]
    exact ⟨h.limit_eq, hlevel, congrArg Neg.neg hlevel⟩

theorem Mute.modulate (h : a.Mute) (hok : a.modulate = .ok a') : a'.Mute := by
  rcases modulate_cases hok with ⟨-, rfl⟩ | ⟨-, envelope, -, rfl⟩
  · exact h
  · exact ⟨h.limit_eq, h.high_eq, h.low_eq⟩

theorem Mute.performed (h : a.Mute) {action : Action} (hmute : action.IsMute) :
    (a.performed action).Mute := by
  cases action with
  | noteOn note velocity =>
    obtain rfl : velocity = 0 := hmute
    simp only [Amplitude.performed, begun]
    split
    all_goals exact ⟨rfl, rfl, rfl⟩
  | noteOff =>
    simp only [Amplitude.performed, Amplitude.stop]
    split
    · exact ⟨h.limit_eq, h.high_eq, h.low_eq⟩
    · exact ⟨h.limit_eq, rfl, rfl⟩
  | configureEnvelope params => exact ⟨h.limit_eq, h.high_eq, h.low_eq⟩
  | envelopeOn => exact ⟨h.limit_eq, h.high_eq, h.low_eq⟩
  | envelopeOff => exact ⟨h.limit_eq, h.high_eq, h.low_eq⟩
  | setDuty duty => exact h
  | configureVibrato params => exact h
  | vibratoOn => exact h
  | vibratoOff => exact h

end Mute

end Amplitude

namespace Triangle

/-- No level, flat ramps, and no velocity that would raise them. -/
structure Mute (r : Triangle) : Prop where
  velocity_eq : r.velocity = 0
  low_eq : r.low = 0
  current_eq : r.current = 0
  up_eq : r.up = 0
  down_eq : r.down = 0

theorem rampStep_of_no_swing (span : Fixed) : rampStep 0 span = 0 := by
  by_cases hzero : span = Fixed.zero
  · rw [hzero, rampStep_zero]
  · obtain ⟨n, hstep, hle, -⟩ := rampStep_spec 0 span
    have hpos := Fixed.units_pos hzero
    -- the rounded quotient of nothing is below one half
    have hn : n = 0 := by
      by_contra hne
      have hone : span.units ≤ n * span.units :=
        Nat.le_mul_of_pos_left _ (Nat.pos_of_ne_zero hne)
      simp only [UInt16.toNat_zero, Nat.mul_zero, Nat.zero_add] at hle
      omega
    apply Int16.toInt_inj.1
    rw [hstep, hn]
    rfl

theorem mute_ramped {r : Triangle} (hvelocity : r.velocity = 0) (hlow : r.low = 0)
    (hcurrent : r.current = 0) : r.ramped.Mute := by
  have hswing : swing r.velocity = 0 := by
    rw [hvelocity]
    rfl
  refine ⟨hvelocity, hlow, hcurrent, ?_, ?_⟩
  · simp only [ramped, hswing, rampStep_of_no_swing]
  · simp only [ramped, hswing, rampStep_of_no_swing]
    rfl

section Mute

variable {r r' : Triangle}

theorem Mute.performed (h : r.Mute) (t : Tuning) {action : Action} (hmute : action.IsMute) :
    (r.performed t action).Mute := by
  rcases r.performed_cases t action with ⟨note, velocity, rfl⟩ | ⟨duty, rfl⟩ | rfl | ⟨flag, hflag⟩
  · obtain rfl : velocity = 0 := hmute
    exact mute_ramped rfl rfl rfl
  · exact mute_ramped h.velocity_eq h.low_eq h.current_eq
  · exact ⟨h.velocity_eq, rfl, h.current_eq, rfl, rfl⟩
  · rw [hflag]
    exact ⟨h.velocity_eq, h.low_eq, h.current_eq, h.up_eq, h.down_eq⟩

theorem Mute.next (h : r.Mute) {x : Int16} (hok : r.next = .ok (x, r')) : x = 0 ∧ r'.Mute := by
  obtain ⟨hsame, hcurrent, hx⟩ := next_eq_ok hok
  -- a wrap goes to the low level and any other sample one step along a flat ramp
  have hslope : r.slope = 0 := by
    simp only [slope, h.up_eq, h.down_eq, ite_self]
  have hzero : x = 0 := by
    rw [hx, hslope, saturatingAdd_zero, h.low_eq, h.current_eq, ite_self]
  refine ⟨hzero, ?_⟩
  constructor
  · rw [hsame.velocity_eq, h.velocity_eq]
  · rw [hsame.low_eq, h.low_eq]
  · rw [hcurrent, hzero]
  · rw [hsame.up_eq, h.up_eq]
  · rw [hsame.down_eq, h.down_eq]

end Mute

end Triangle

/-! ## Mute parts -/

namespace Part

variable {ρ : Type}

/-- The voice of the part has no level. -/
def Mute : Part ρ → Prop
  | square q => q.amplitude.Mute
  | triangle r => r.Mute
  | noise n _ => n.amplitude.Mute

theorem mute_tuned (t : Tuning) (source : ρ) (c : Channel) :
    ((Synth.tuned t source).part c).Mute := by
  cases c with
  | squareA => exact ⟨rfl, rfl, rfl⟩
  | squareB => exact ⟨rfl, rfl, rfl⟩
  | triangle => exact ⟨rfl, rfl, rfl, rfl, rfl⟩
  | noise => exact ⟨rfl, rfl, rfl⟩

section Mute

variable {p p' : Part ρ}

theorem Mute.performed (h : p.Mute) (t : Tuning) {action : Action} (hmute : action.IsMute) :
    (p.performed t action).Mute := by
  cases p with
  | square q =>
    simp only [Part.performed, Mute, Square.amplitude_performed]
    exact Amplitude.Mute.performed h hmute
  | triangle r => exact Triangle.Mute.performed h t hmute
  | noise n source =>
    simp only [Part.performed, Mute, Noise.amplitude_performed]
    exact Amplitude.Mute.performed h hmute

theorem Mute.modulate (h : p.Mute) (hok : p.modulate = .ok p') : p'.Mute := by
  cases p with
  | square q =>
    obtain ⟨q₁, q', rfl, hvibrato, henvelope⟩ := exists_of_modulate_square hok
    exact Amplitude.Mute.modulate h (Square.amplitude_modulate hvibrato henvelope)
  | triangle r =>
    cases hok
    exact h
  | noise n source =>
    obtain ⟨n', rfl, henvelope⟩ := exists_of_modulate_noise hok
    exact Amplitude.Mute.modulate h (Noise.amplitude_modulate henvelope)

/-- A mute part gives a sample of zero and stays mute. -/
theorem Mute.next [BitSource ρ] (h : p.Mute) {x : Int16} (hok : p.next = .ok (x, p')) :
    x = 0 ∧ p'.Mute := by
  cases p with
  | square q =>
    obtain ⟨q', rfl, hnext⟩ := exists_of_next_square hok
    obtain ⟨hamplitude, hemits⟩ := Square.amplitude_next hnext
    refine ⟨Amplitude.Mute.eq_zero_of_emits h hemits, ?_⟩
    simp only [Mute, hamplitude]
    split
    · exact Amplitude.Mute.refresh h
    · exact h
  | triangle r =>
    obtain ⟨r', rfl, hnext⟩ := exists_of_next_triangle hok
    exact Triangle.Mute.next h hnext
  | noise n source =>
    obtain ⟨n', source', rfl, hnext⟩ := exists_of_next_noise hok
    obtain ⟨hamplitude, hemits⟩ := Noise.amplitude_next hnext
    -- the sample has the levels after the reload
    have hmute : n'.amplitude.Mute := by
      rw [hamplitude]
      split
      · exact Amplitude.Mute.refresh h
      · exact h
    exact ⟨hmute.eq_zero_of_emits hemits, hmute⟩

end Mute

end Part

/-! ## Mute runs -/

namespace Synth

variable {ρ : Type} [BitSource ρ]

theorem mute_move {s s' : Synth ρ} {m : Move} {c : Channel} (h : (s.part c).Mute)
    (hmute : m.IsMuteFor c) (hok : s.move m = .ok s') : (s'.part c).Mute := by
  rcases move_part hok c with ⟨-, x, hnext⟩ | ⟨-, -, hmodulate⟩ | ⟨-, action, haction, hpart⟩ |
    ⟨-, hpart⟩
  · exact (h.next hnext).2
  · exact h.modulate hmodulate
  · rw [hpart]
    exact h.performed s.tuning (hmute action haction)
  · rw [hpart]
    exact h

/-- If all parts are mute, so is their sum. -/
theorem mix_eq_zero {s s' : Synth ρ} {x : Int16} (h : ∀ c, (s.part c).Mute)
    (hmix : s.mix = .ok (x, s')) : x = 0 := by
  obtain ⟨y, hparts, rfl, -⟩ := mix_iff.1 hmix
  have hy : ∀ c, y c = 0 := by
    intro c
    exact ((h c).next (hparts c)).1
  rw [hy, hy, hy, hy]
  rfl

/-- A sample in the ring was there before, or it was mixed just now. -/
theorem ring_move {s s' : Synth ρ} {m : Move} {queue : List Int16}
    (h : Fifo.Stands s.ring queue) (hok : s.move m = .ok s') :
    ∃ queue', Fifo.Stands s'.ring queue' ∧
      ∀ x ∈ queue', x ∈ queue ∨ ∃ s₁, s.mix = .ok (x, s₁) := by
  have hsame (hring : s'.ring = s.ring) : ∃ queue', Fifo.Stands s'.ring queue' ∧
      ∀ x ∈ queue', x ∈ queue ∨ ∃ s₁, s.mix = .ok (x, s₁) := by
    rw [hring]
    exact ⟨queue, h, fun x hx => Or.inl hx⟩
  cases m with
  | command c =>
    obtain rfl := Except.ok.inj ((apply_eq s c).symm.trans hok)
    exact hsame rfl
  | modulate => exact hsame (modulate_iff.1 hok).2.2
  | mix =>
    simp only [move, bind_eq_ok, pure, Except.pure, Except.ok.injEq, Prod.exists] at hok
    obtain ⟨x, s₁, hmix, rfl⟩ := hok
    obtain ⟨-, -, -, -, hring⟩ := mix_iff.1 hmix
    exact hsame hring
  | tick =>
    simp only [move, tick] at hok
    split at hok
    · cases hok
      exact hsame rfl
    · simp only [bind_eq_ok, pure, Except.pure, Except.ok.injEq, Prod.exists] at hok
      obtain ⟨x, s₁, hmix, ring', hpush, rfl⟩ := hok
      obtain ⟨-, -, -, -, hring⟩ := mix_iff.1 hmix
      rw [hring] at hpush
      -- the mix leaves the ring alone, so the push is one on the ring of before
      rcases h.push x with ⟨hfault, -⟩ | ⟨ring₁, hpush₁, -, h₁⟩
      · rw [hpush] at hfault
        cases hfault
      · obtain rfl := Except.ok.inj (hpush.symm.trans hpush₁)
        refine ⟨queue ++ [x], h₁, ?_⟩
        intro z hz
        rcases List.mem_append.1 hz with hz | hz
        · exact Or.inl hz
        · obtain rfl := List.mem_singleton.1 hz
          exact Or.inr ⟨s₁, hmix⟩
  | pop =>
    simp only [move, pop] at hok
    split at hok
    · cases hok
      exact hsame rfl
    · simp only [bind_eq_ok, pure, Except.pure, Except.ok.injEq, Prod.exists, Prod.mk.injEq] at hok
      obtain ⟨x, s₁, ⟨x', ring', hpop, rfl, rfl⟩, rfl⟩ := hok
      rcases h.pop with ⟨hfault, -⟩ | ⟨z, ring₁, queue₁, hpop₁, rfl, h₁⟩
      · rw [hpop] at hfault
        cases hfault
      · obtain ⟨rfl, rfl⟩ := Prod.mk.inj (Except.ok.inj (hpop.symm.trans hpop₁))
        exact ⟨queue₁, h₁, fun z hz => Or.inl (List.mem_cons_of_mem _ hz)⟩

/-- Every part is mute, and every sample in the ring is zero. -/
structure Mute (s : Synth ρ) : Prop where
  parts : ∀ c, (s.part c).Mute
  ring : ∃ queue, Fifo.Stands s.ring queue ∧ ∀ x ∈ queue, x = 0

theorem Mute.move {s s' : Synth ρ} {m : Move} (h : s.Mute) (hmute : ∀ c, m.IsMuteFor c)
    (hok : s.move m = .ok s') : s'.Mute := by
  refine ⟨fun c => mute_move (h.parts c) (hmute c) hok, ?_⟩
  obtain ⟨queue, hstands, hzero⟩ := h.ring
  obtain ⟨queue', hstands', hnew⟩ := ring_move hstands hok
  refine ⟨queue', hstands', ?_⟩
  intro x hx
  rcases hnew x hx with hold | ⟨s₁, hmix⟩
  · exact hzero x hold
  · exact mix_eq_zero h.parts hmix

/-- In every run of a new synthesizer, a channel on which no note has a velocity contributes
only zeros, whatever else is done to it and to the other channels. If no note has a velocity
on any channel, all mixed samples are zero, and so are all samples in the ring. -/
theorem silent_without_velocity (t : Tuning) (source : ρ) (moves : List Move) :
    (∀ c, (∀ m ∈ moves, m.IsMuteFor c) →
      ∀ u ∈ sampled moves (tuned t source), u.contribution c = .ok 0) ∧
    ((∀ c, ∀ m ∈ moves, m.IsMuteFor c) →
      (∀ u ∈ sampled moves (tuned t source), ∃ v, u.mix = .ok (0, v)) ∧
      ∀ u, (tuned t source).run moves = .ok u → ∀ x ∈ u.ring.contents, x = 0) := by
  have hparts : ∀ c, (∀ m ∈ moves, m.IsMuteFor c) →
      ∀ u ∈ sampled moves (tuned t source), (u.part c).Mute := by
    intro c hmute
    exact sampled_keeps (P := fun u => (u.part c).Mute) moves
      (fun s s' m hm h hok => mute_move h (hmute m hm) hok) (Part.mute_tuned t source c)
  refine ⟨?_, ?_⟩
  · intro c hmute u hu
    obtain ⟨x, v, hmix⟩ := mix_of_mem_sampled hu
    obtain ⟨y, hnext, -⟩ := mix_iff.1 hmix
    have hzero := ((hparts c hmute u hu).next (hnext c)).1
    exact contribution_eq_ok.2 ⟨v.part c, hzero ▸ hnext c⟩
  · intro hmute
    refine ⟨?_, ?_⟩
    · intro u hu
      obtain ⟨x, v, hmix⟩ := mix_of_mem_sampled hu
      have hzero := mix_eq_zero (fun c => hparts c (hmute c) u hu) hmix
      exact ⟨v, hzero ▸ hmix⟩
    · intro u hrun
      have hstart : (tuned t source).Mute :=
        ⟨Part.mute_tuned t source, [], Fifo.stands_empty (by decide), fun x hx => nomatch hx⟩
      have hend : u.Mute := run_keeps_of_mem moves
        (fun s s' m hm h hok => h.move (fun c => hmute c m hm) hok) hstart hrun
      obtain ⟨queue, hstands, hzero⟩ := hend.ring
      rw [hstands.2]
      exact hzero

theorem silent_without_velocity_in_vibrato :
    let s := tuned ⟨48000, Vector.replicate 128 ⟨131072⟩⟩ (Lfsr.seeded 1)
    let quiet : List Move :=
      [.command (.address 0 (.configureVibrato ⟨126, 200⟩)), .modulate, .tick,
        .command (.address 0 .envelopeOn), .command (.address 0 (.noteOn 60 0)), .modulate, .tick,
        .mix, .command (.address 2 (.noteOn 60 0)), .command (.address 2 (.setDuty 200)),
        .command .allNotesOff, .modulate, .mix, .pop, .tick]
    let moves := .command (.address 3 (.noteOn 127 100)) :: quiet
    (∀ m ∈ moves, m.IsMuteFor .squareA) ∧
      (sampled moves s).map (fun u => (u.contribution .noise).toOption) =
        [some (-3200), some 3200, some 3200, some 0, some 0] ∧
      (∀ u ∈ sampled moves s, u.contribution .squareA = .ok 0) ∧
      (∀ c, ∀ m ∈ quiet, m.IsMuteFor c) ∧
      ∃ u, s.run quiet = .ok u ∧ u.ring.length = 2 ∧ u.squareA.phase.period = ⟨145784⟩ ∧
        ∀ x ∈ u.ring.contents, x = 0 := by
  intro s quiet moves
  have hmute : ∀ m ∈ moves, m.IsMuteFor .squareA := by decide
  have hquiet : ∀ c, ∀ m ∈ quiet, m.IsMuteFor c := by
    intro c
    cases c
    all_goals decide
  have heval : (s.run quiet).toOption.map (fun u => (u.ring.length, u.squareA.phase.period)) =
      some (2, ⟨145784⟩) := by
    decide +kernel
  obtain ⟨u, hrun, hu⟩ := exists_ok_of_toOption heval
  obtain ⟨hlength, hperiod⟩ := Prod.mk.inj hu
  refine ⟨hmute, by decide +kernel, (silent_without_velocity _ _ moves).1 .squareA hmute, hquiet,
    u, hrun, hlength, hperiod, ?_⟩
  exact ((silent_without_velocity _ _ quiet).2 hquiet).2 u hrun

end Synth

end Chiptune
