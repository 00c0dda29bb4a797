import Chiptune.Proofs.Parts

/-!
# Four channels side by side

Whatever is done to a synthesizer is done to each of its parts by itself, and a
sample of the mix is the wrapped sum of one sample of each part. A run can therefore
be thinned out for one channel: without the commands that are not meant for it the
channel goes through the same states and gives the same samples
(`channels_do_not_interfere`). The other channels then never play; they stay idle
and cannot fault (`Part.Idle`).
-/

set_option autoImplicit false

namespace Chiptune

variable {ρ : Type}

/-! ## Idle parts -/

/-- The part never played: it has no period and nothing to modulate. -/
def Part.Idle : Part ρ → Prop
  | square q => q.phase.period = Fixed.zero ∧ q.vibrato.enabled = false ∧
      q.amplitude.envelope.enabled = false
  | triangle r => r.phase.period = Fixed.zero
  | noise n _ => n.amplitude.envelope.enabled = false

theorem Amplitude.enabled_stop (a : Amplitude) : a.stop.envelope.enabled = a.envelope.enabled := by
  unfold stop
  split <;> rfl

theorem Amplitude.enabled_refresh (a : Amplitude) :
    a.refresh.envelope.enabled = a.envelope.enabled := by
  rcases a.refresh_cases with ⟨-, hsame⟩ | ⟨-, htaken⟩
  · rw [hsame]
  · rw [htaken]
    rfl

namespace Part

theorem idle_tuned (t : Tuning) (source : ρ) (c : Channel) :
    ((Synth.tuned t source).part c).Idle := by
  cases c with
  | squareA => exact ⟨rfl, rfl, rfl⟩
  | squareB => exact ⟨rfl, rfl, rfl⟩
  | triangle => rfl
  | noise => rfl

/-- The end of a note that never was leaves a part idle. -/
theorem Idle.released {p : Part ρ} (h : p.Idle) (t : Tuning) : (p.performed t .noteOff).Idle := by
  cases p with
  | square q =>
    obtain ⟨hperiod, hvibrato, hoff⟩ := h
    exact ⟨hperiod, hvibrato, (Amplitude.enabled_stop _).trans hoff⟩
  | triangle r => exact h
  | noise n source => exact (Amplitude.enabled_stop _).trans h

theorem Idle.modulate {p : Part ρ} (h : p.Idle) : p.modulate = .ok p := by
  cases p with
  | square q =>
    obtain ⟨-, hvibrato, hoff⟩ := h
    have hsame : q.modulateVibrato = .ok q := by simp [Square.modulateVibrato, hvibrato]
    simp only [Part.modulate, hsame, Square.modulateEnvelope, Amplitude.modulate_of_disabled hoff,
      bind, Except.bind, pure, Except.pure]
  | triangle r => rfl
  | noise n source =>
    have hoff : n.amplitude.envelope.enabled = false := h
    simp only [Part.modulate, Noise.modulateEnvelope, Amplitude.modulate_of_disabled hoff,
      bind, Except.bind, pure, Except.pure]

/-- The noise goes on drawing bits while it is idle. -/
theorem Idle.next [BitSource ρ] {p : Part ρ} (h : p.Idle) :
    ∃ x p', p.next = .ok (x, p') ∧ p'.Idle := by
  cases p with
  | square q =>
    obtain ⟨hperiod, hvibrato, hoff⟩ := h
    have hok : q.next = .ok (q.amplitude.low, q) := by
      simp only [Square.next, if_pos hperiod, pure, Except.pure]
    refine ⟨q.amplitude.low, square q, ?_, hperiod, hvibrato, hoff⟩
    simp only [Part.next, hok, bind, Except.bind, pure, Except.pure]
  | triangle r =>
    have hperiod : r.phase.period = Fixed.zero := h
    have hok : r.next = .ok (r.current, r) := by
      simp only [Triangle.next, if_pos hperiod, pure, Except.pure]
    refine ⟨r.current, triangle r, ?_, hperiod⟩
    simp only [Part.next, hok, bind, Except.bind, pure, Except.pure]
  | noise n source =>
    have hoff : n.amplitude.envelope.enabled = false := h
    rcases n.next_cases source with ⟨-, hok⟩ | ⟨-, hok⟩
    · refine ⟨(n.reloaded (BitSource.draw source).1).output,
        noise (n.reloaded (BitSource.draw source).1) (BitSource.draw source).2, ?_, ?_⟩
      · simp only [Part.next, hok, bind, Except.bind, pure, Except.pure]
      · exact (Amplitude.enabled_refresh n.amplitude).trans hoff
    · refine ⟨n.output, noise { n with counter := n.counter - 1 } source, ?_, hoff⟩
      simp only [Part.next, hok, bind, Except.bind, pure, Except.pure]

end Part

/-! ## One channel by itself -/

/-- The move is not a command, or it is one with an action for the channel. -/
def Move.concerns (c : Channel) : Move → Bool
  | .command given => (given.actionFor c).isSome
  | .modulate | .mix | .tick | .pop => true

namespace Synth

/-- The second synthesizer is the first one on a channel and idle on all others. -/
structure Isolates (c : Channel) (s s' : Synth ρ) : Prop where
  tuning_eq : s'.tuning = s.tuning
  part_eq : s'.part c = s.part c
  idle : ∀ d, d ≠ c → (s'.part d).Idle
  length_eq : s'.ring.length = s.ring.length
  sound : s'.ring.Sound

section Isolates

variable {c : Channel} {s s' s₁ : Synth ρ}

theorem isolates_tuned (t : Tuning) (source : ρ) (c : Channel) :
    Isolates c (tuned t source) (tuned t source) where
  tuning_eq := rfl
  part_eq := rfl
  idle := fun d _ => Part.idle_tuned t source d
  length_eq := rfl
  sound := SampleRing.sound_empty (by decide)

/-- A command for another channel, or for none, is not missed. -/
theorem Isolates.skip (h : Isolates c s s') {command : Command}
    (hnone : command.actionFor c = none) : Isolates c (s.applied command) s' where
  tuning_eq := h.tuning_eq
  part_eq := by rw [part_applied, hnone]; exact h.part_eq
  idle := h.idle
  length_eq := h.length_eq
  sound := h.sound

/-- A command with an action for two channels ends all notes. -/
theorem actionFor_of_ne {command : Command} {d : Channel} {action : Action} (hd : d ≠ c)
    (hc : (command.actionFor c).isSome = true) (haction : command.actionFor d = some action) :
    action = .noteOff := by
  cases command with
  | allNotesOff => exact (Option.some.inj haction).symm
  | address number other =>
    simp only [Command.actionFor] at hc haction
    split at hc
    · rename_i hnumber
      split at haction
      · rename_i hnumber'
        have hsame := (Channel.ofNumber_eq_ok.2 hnumber').symm.trans (Channel.ofNumber_eq_ok.2 hnumber)
        exact absurd (Except.ok.inj hsame) hd
      · cases haction
    · cases hc

theorem Isolates.applied (h : Isolates c s s') {command : Command}
    (hc : (command.actionFor c).isSome = true) :
    Isolates c (s.applied command) (s'.applied command) where
  tuning_eq := h.tuning_eq
  part_eq := by rw [part_applied, part_applied, h.part_eq, h.tuning_eq]
  idle := by
    intro d hd
    rw [part_applied]
    cases haction : command.actionFor d with
    | none => exact h.idle d hd
    | some action =>
      -- only the end of all notes reaches a second channel
      rw [actionFor_of_ne hd hc haction]
      exact (h.idle d hd).released _
  length_eq := h.length_eq
  sound := h.sound

theorem Isolates.modulate (h : Isolates c s s') (hok : s.modulate = .ok s₁) :
    ∃ s₁', s'.modulate = .ok s₁' ∧ Isolates c s₁ s₁' := by
  obtain ⟨hparts, htuning, hring⟩ := modulate_iff.1 hok
  -- the channel itself does what it did, and the others have nothing to do
  have hchannel : (s'.part c).modulate = .ok (s₁.part c) := by rw [h.part_eq]; exact hparts c
  have hall : ∀ d, ∃ p, (s'.part d).modulate = .ok p := by
    intro d
    by_cases hd : d = c
    · exact ⟨_, hd ▸ hchannel⟩
    · exact ⟨_, (h.idle d hd).modulate⟩
  obtain ⟨s₁', hok'⟩ := exists_modulate hall
  obtain ⟨hparts', htuning', hring'⟩ := modulate_iff.1 hok'
  refine ⟨s₁', hok', ?_, ?_, ?_, ?_, ?_⟩
  · rw [htuning', h.tuning_eq, htuning]
  · exact Except.ok.inj ((hparts' c).symm.trans hchannel)
  · intro d hd
    have hsame := Except.ok.inj ((hparts' d).symm.trans (h.idle d hd).modulate)
    rw [hsame]
    exact h.idle d hd
  · rw [hring', hring]
    exact h.length_eq
  · rw [hring']
    exact h.sound

theorem Isolates.withRing (h : Isolates c s s') {ring ring' : SampleRing ringCapacity}
    (hlength : ring'.length = ring.length) (hsound : ring'.Sound) :
    Isolates c (s.withRing ring) (s'.withRing ring') where
  tuning_eq := h.tuning_eq
  part_eq := by rw [part_withRing, part_withRing]; exact h.part_eq
  idle := by
    intro d hd
    rw [part_withRing]
    exact h.idle d hd
  length_eq := hlength
  sound := hsound

theorem Isolates.samples_iff (h : Isolates c s s') (m : Move) : s'.Samples m ↔ s.Samples m := by
  cases m with
  | tick => simp only [Samples, SampleRing.isFull, h.length_eq]
  | mix => exact Iff.rfl
  | command given => exact Iff.rfl
  | modulate => exact Iff.rfl
  | pop => exact Iff.rfl

theorem Isolates.pop (h : Isolates c s s') (hempty : s.ring.isEmpty = false) {x : Int16}
    (hok : s.pop = .ok (x, s₁)) : ∃ x' s₁', s'.pop = .ok (x', s₁') ∧ Isolates c s₁ s₁' := by
  simp only [Synth.pop, bind_eq_ok, Prod.exists, pure, Except.pure, Except.ok.injEq,
    Prod.mk.injEq] at hok
  obtain ⟨x, ring, hpop, rfl, rfl⟩ := hok
  have hne : s'.ring.length ≠ 0 := by
    rw [h.length_eq]
    exact mt (SampleRing.isEmpty_iff _).2 (Bool.eq_false_iff.1 hempty)
  obtain ⟨x', ring', hpop', hsound', -⟩ := SampleRing.pop_contents h.sound hne
  have hlength : ring'.length = ring.length := by
    rw [SampleRing.length_of_pop hpop, SampleRing.length_of_pop hpop', h.length_eq]
  refine ⟨x', s'.withRing ring', ?_, h.withRing hlength hsound'⟩
  simp only [Synth.pop, hpop', bind, Except.bind, pure, Except.pure]
  rfl

variable [BitSource ρ]

theorem Isolates.mix (h : Isolates c s s') {x : Int16} (hok : s.mix = .ok (x, s₁)) :
    ∃ x' s₁', s'.mix = .ok (x', s₁') ∧ Isolates c s₁ s₁' := by
  obtain ⟨y, hparts, -, htuning, hring⟩ := mix_iff.1 hok
  have hchannel : (s'.part c).next = .ok (y c, s₁.part c) := by rw [h.part_eq]; exact hparts c
  have hall : ∀ d, ∃ r, (s'.part d).next = .ok r := by
    intro d
    by_cases hd : d = c
    · exact ⟨_, hd ▸ hchannel⟩
    · obtain ⟨z, p, hnext, -⟩ := (h.idle d hd).next
      exact ⟨_, hnext⟩
  obtain ⟨x', s₁', hok'⟩ := exists_mix hall
  obtain ⟨y', hparts', -, htuning', hring'⟩ := mix_iff.1 hok'
  refine ⟨x', s₁', hok', ?_, ?_, ?_, ?_, ?_⟩
  · rw [htuning', h.tuning_eq, htuning]
  · exact (Prod.mk.inj (Except.ok.inj ((hparts' c).symm.trans hchannel))).2
  · intro d hd
    obtain ⟨z, p, hnext, hidle⟩ := (h.idle d hd).next
    rw [(Prod.mk.inj (Except.ok.inj ((hparts' d).symm.trans hnext))).2]
    exact hidle
  · rw [hring', hring]
    exact h.length_eq
  · rw [hring']
    exact h.sound

theorem Isolates.tick (h : Isolates c s s') (hfull : s.ring.isFull = false)
    (hok : s.tick = .ok s₁) : ∃ s₁', s'.tick = .ok s₁' ∧ Isolates c s₁ s₁' := by
  simp only [Synth.tick, bind_eq_ok, Prod.exists, pure, Except.pure, Except.ok.injEq] at hok
  obtain ⟨x, s₂, hmix, ring, hpush, rfl⟩ := hok
  obtain ⟨x', s₂', hmix', h₂⟩ := h.mix hmix
  -- the two rings hold equally many samples, so there is room in both
  have hroom : s₂'.ring.length < ringCapacity := by
    obtain ⟨y, -, -, -, hring⟩ := mix_iff.1 hmix
    have hne : s.ring.length ≠ ringCapacity := beq_eq_false_iff_ne.1 hfull
    have hle := h₂.sound.length_le
    rw [h₂.length_eq, hring] at hle ⊢
    exact Nat.lt_of_le_of_ne hle hne
  obtain ⟨ring', hpush', hsound', -⟩ := SampleRing.push_contents h₂.sound hroom x'
  have hlength : ring'.length = ring.length := by
    rw [SampleRing.length_of_push hpush, SampleRing.length_of_push hpush', h₂.length_eq]
  refine ⟨s₂'.withRing ring', ?_, h₂.withRing hlength hsound'⟩
  simp only [Synth.tick, hmix', bind, Except.bind, hpush', pure, Except.pure]
  rfl

/-- A move that concerns the channel is made on both sides. -/
theorem Isolates.move (h : Isolates c s s') {m : Move} (hm : m.concerns c = true)
    (hok : s.move m = .ok s₁) : ∃ s₁', s'.move m = .ok s₁' ∧ Isolates c s₁ s₁' := by
  cases m with
  | command given =>
    obtain rfl := Except.ok.inj ((apply_eq s given).symm.trans hok)
    exact ⟨s'.applied given, apply_eq s' given, h.applied hm⟩
  | modulate => exact h.modulate hok
  | mix =>
    simp only [Synth.move, bind_eq_ok, Prod.exists, pure, Except.pure, Except.ok.injEq] at hok
    obtain ⟨x, s₂, hmix, rfl⟩ := hok
    obtain ⟨x', s₂', hmix', h₂⟩ := h.mix hmix
    refine ⟨s₂', ?_, h₂⟩
    simp only [Synth.move, hmix', bind, Except.bind, pure, Except.pure]
  | tick =>
    have hsame : s'.ring.isFull = s.ring.isFull := by simp only [SampleRing.isFull, h.length_eq]
    cases hfull : s.ring.isFull with
    | true =>
      simp only [Synth.move, hfull, if_true, Except.ok.injEq] at hok
      refine ⟨s', ?_, hok ▸ h⟩
      simp only [Synth.move, hsame, hfull, if_true]
    | false =>
      simp only [Synth.move, hfull, Bool.false_eq_true, if_false] at hok
      obtain ⟨s₁', hok', h₁⟩ := h.tick hfull hok
      refine ⟨s₁', ?_, h₁⟩
      simp only [Synth.move, hsame, hfull, Bool.false_eq_true, if_false, hok']
  | pop =>
    have hsame : s'.ring.isEmpty = s.ring.isEmpty := by
      simp only [SampleRing.isEmpty, h.length_eq]
    cases hempty : s.ring.isEmpty with
    | true =>
      simp only [Synth.move, hempty, if_true, Except.ok.injEq] at hok
      refine ⟨s', ?_, hok ▸ h⟩
      simp only [Synth.move, hsame, hempty, if_true]
    | false =>
      simp only [Synth.move, hempty, Bool.false_eq_true, if_false, bind_eq_ok, Prod.exists, pure,
        Except.pure, Except.ok.injEq] at hok
      obtain ⟨x, s₂, hpop, rfl⟩ := hok
      obtain ⟨x', s₂', hpop', h₂⟩ := h.pop hempty hpop
      refine ⟨s₂', ?_, h₂⟩
      simp only [Synth.move, hsame, hempty, Bool.false_eq_true, if_false, hpop', bind, Except.bind,
        pure, Except.pure]

/-- A move that does not concern the channel is left out. -/
theorem Isolates.leave (h : Isolates c s s') {m : Move} (hm : m.concerns c = false)
    (hok : s.move m = .ok s₁) : ¬ s.Samples m ∧ Isolates c s₁ s' := by
  cases m with
  | command given =>
    obtain rfl := Except.ok.inj ((apply_eq s given).symm.trans hok)
    exact ⟨id, h.skip (Option.isSome_eq_false_iff.1 hm |> Option.isNone_iff_eq_none.1)⟩
  | modulate => cases hm
  | mix => cases hm
  | tick => cases hm
  | pop => cases hm

/-- The thinned run goes through the same parts and gives the same samples. -/
theorem Isolates.run (moves : List Move) {s s' s₁ : Synth ρ} (h : Isolates c s s')
    (hok : s.run moves = .ok s₁) :
    (∃ s₁', s'.run (moves.filter (Move.concerns c)) = .ok s₁' ∧ Isolates c s₁ s₁') ∧
      (sampled moves s).map (contribution c) =
        (sampled (moves.filter (Move.concerns c)) s').map (contribution c) := by
  induction moves generalizing s s' with
  | nil =>
    cases hok
    exact ⟨⟨s', rfl, h⟩, rfl⟩
  | cons m moves ih =>
    obtain ⟨s₂, hmove, hrest⟩ := run_cons_eq_ok.1 hok
    cases hm : m.concerns c with
    | true =>
      obtain ⟨s₂', hmove', h₂⟩ := h.move hm hmove
      obtain ⟨⟨s₁', hrun, h₁⟩, hsamples⟩ := ih h₂ hrest
      rw [List.filter_cons_of_pos hm, sampled_cons hmove, sampled_cons hmove']
      -- both rings are equally full, so a sample here is a sample there
      refine ⟨⟨s₁', run_cons_eq_ok.2 ⟨s₂', hmove', hrun⟩, h₁⟩, ?_⟩
      have hcontribution : contribution c s' = contribution c s := by
        simp only [contribution, h.part_eq]
      by_cases hsample : s.Samples m
      · rw [if_pos hsample, if_pos ((h.samples_iff m).2 hsample), List.map_cons, List.map_cons,
          hcontribution, hsamples]
      · rw [if_neg hsample, if_neg (mt (h.samples_iff m).1 hsample), hsamples]
    | false =>
      obtain ⟨hsample, h₂⟩ := h.leave hm hmove
      rw [List.filter_cons_of_neg (by rw [hm]; decide), sampled_cons hmove, if_neg hsample]
      exact ih h₂ hrest

end Isolates

/-! ## Commands for different channels -/

theorem applied_comm (s : Synth ρ) {n m : UInt8} (h : n ≠ m) (a b : Action) :
    (s.applied (.address n a)).applied (.address m b) =
      (s.applied (.address m b)).applied (.address n a) := by
  refine ext_parts (fun c => ?_) rfl rfl
  rw [part_applied, part_applied, part_applied, part_applied]
  -- at most one of the two numbers is that of the channel
  by_cases hn : n = c.number
  · have hm : ¬ m = c.number := fun hm => h (hn.trans hm.symm)
    simp only [Command.actionFor, if_pos hn, if_neg hm]
    rfl
  · simp only [Command.actionFor, if_neg hn]
    rfl

theorem actionFor_unknown {n : UInt8} (h : 3 < n) (a : Action) (c : Channel) :
    (Command.address n a).actionFor c = none := by
  have hne : n ≠ c.number := by
    rintro rfl
    revert h
    cases c <;> decide
  simp only [Command.actionFor, if_neg hne]

theorem applied_unknown (s : Synth ρ) {n : UInt8} (h : 3 < n) (a : Action) :
    s.applied (.address n a) = s := by
  refine ext_parts (fun c => ?_) rfl rfl
  rw [part_applied, actionFor_unknown h]
  rfl

/-- In a run without a fault every channel is, after each move, in the state that it
has after the run without the commands not meant for it, and it gives the same
samples there. Each mixed sample is the sum of what the channels give, wrapped to
sixteen bits. So commands for different channels commute, and those for a channel
above 3 change nothing. -/
theorem channels_do_not_interfere [BitSource ρ] (t : Tuning) (source : ρ) (moves : List Move)
    (s : Synth ρ) (h : (tuned t source).run moves = .ok s) (c : Channel) :
    (∀ first, first <+: moves → ∃ u v, (tuned t source).run first = .ok u ∧
      (tuned t source).run (first.filter (Move.concerns c)) = .ok v ∧ v.part c = u.part c) ∧
    (sampled moves (tuned t source)).map (contribution c) =
      (sampled (moves.filter (Move.concerns c)) (tuned t source)).map (contribution c) ∧
    (∀ u ∈ sampled moves (tuned t source), ∃ (y : Channel → Int16) (v : Synth ρ),
      (∀ d, u.contribution d = .ok (y d)) ∧
      u.mix = .ok (Int16.ofInt ((y .squareA).toInt + (y .squareB).toInt + (y .triangle).toInt +
        (y .noise).toInt), v)) ∧
    (∀ (u : Synth ρ) (n m : UInt8) (a b : Action), n ≠ m →
      (do (← u.apply (.address n a)).apply (.address m b)) =
        (do (← u.apply (.address m b)).apply (.address n a))) ∧
    (∀ (u : Synth ρ) (n : UInt8) (a : Action), 3 < n → u.apply (.address n a) = .ok u) := by
  refine ⟨?_, ((isolates_tuned t source c).run moves h).2, ?_, ?_, ?_⟩
  · rintro first ⟨rest, rfl⟩
    rw [run_append] at h
    obtain ⟨u, hfirst, -⟩ := bind_eq_ok.1 h
    obtain ⟨⟨v, hthinned, hisolates⟩, -⟩ := (isolates_tuned t source c).run first hfirst
    exact ⟨u, v, hfirst, hthinned, hisolates.part_eq⟩
  · intro u hu
    obtain ⟨x, v, hmix⟩ := mix_of_mem_sampled hu
    obtain ⟨y, hparts, hsum, -⟩ := mix_iff.1 hmix
    refine ⟨y, v, fun d => contribution_eq_ok.2 ⟨_, hparts d⟩, ?_⟩
    rw [hmix, hsum]
    rfl
  · intro u n m a b hne
    simp only [apply_eq, bind, Except.bind]
    rw [applied_comm u hne]
  · intro u n a hn
    rw [apply_eq, applied_unknown u hn]

theorem channels_do_not_interfere_for_triangle :
    let s := Synth.tuned ⟨48000, Vector.replicate 128 ⟨262144⟩⟩ (Lfsr.seeded 1)
    let moves : List Move :=
      [.command (.address 0 (.noteOn 69 100)), .command (.address 2 (.noteOn 60 100)), .mix,
        .command (.address 9 .noteOff), .modulate, .command (.address 3 (.noteOn 127 50)), .tick,
        .command (.address 2 (.setDuty 128)), .mix, .pop, .command .allNotesOff, .mix, .mix]
    moves.filter (Move.concerns .triangle) =
        [.command (.address 2 (.noteOn 60 100)), .mix, .modulate, .tick,
          .command (.address 2 (.setDuty 128)), .mix, .pop, .command .allNotesOff, .mix, .mix] ∧
      ∃ u, s.run moves = .ok u ∧ ∃ v, s.run (moves.filter (Move.concerns .triangle)) = .ok v ∧
        v.part .triangle = u.part .triangle := by
  intro s moves
  have hrun : (s.run moves).toOption.isSome = true := by decide +kernel
  cases hu : s.run moves with
  | error f =>
    rw [hu] at hrun
    cases hrun
  | ok u =>
    obtain ⟨hfirsts, -⟩ := channels_do_not_interfere _ _ moves u hu .triangle
    obtain ⟨u', v, hu', hv, hpart⟩ := hfirsts moves (List.prefix_refl moves)
    obtain rfl := Except.ok.inj (hu.symm.trans hu')
    exact ⟨by decide, u, rfl, v, hv, hpart⟩

end Synth

end Chiptune
