import Chiptune.Proofs.Overflow
import Chiptune.Render

/-!
# Faults of a rendering

At every sample rate that a patch may have, the periods of the equal-tempered
tuning are bounded (`Tuning.equalTempered_bounded`). The rendering of a patch gives
the first samples of the loop behind it (`Patch.render_cases`), and it faults
exactly as the run of its commands, samples and modulation ticks does
(`Patch.render_eq_error`). What is true of runs is therefore true of renderings
(`faults_iff_overflows`).
-/

set_option autoImplicit false

namespace Chiptune

/-! ## The periods of the equal-tempered tuning -/

theorem Rounding.roundDiv_le (num den : Nat) : roundDiv num den ≤ num / den + 1 := by
  unfold roundDiv
  simp only
  split <;> omega

theorem Rounding.floorOfRounded_le (num den : Nat) : floorOfRounded num den ≤ num / den + 1 := by
  unfold floorOfRounded
  simp only
  generalize 52 - (num / den).log2 = spare
  rw [Nat.shiftLeft_eq, Nat.shiftRight_eq_div_pow]
  have hpos : 0 < 2 ^ spare := Nat.pow_pos (by decide)
  calc roundDiv (num * 2 ^ spare) den / 2 ^ spare
      ≤ (num * 2 ^ spare / den + 1) / 2 ^ spare := Nat.div_le_div_right (roundDiv_le _ _)
    _ ≤ (num * 2 ^ spare / den + 2 ^ spare) / 2 ^ spare :=
        Nat.div_le_div_right (Nat.add_le_add_left hpos _)
    _ = num * 2 ^ spare / den / 2 ^ spare + 1 := Nat.add_div_right _ hpos
    _ = num / den + 1 := by
        rw [Nat.div_div_eq_div_mul, Nat.mul_div_mul_right _ _ hpos]

/-- No note is lower than note 0. -/
theorem noteFrequency_ge (note : Fin 128) :
    0x105A0250C2B956 ≤ noteFrequency (UInt8.ofNat note.val) := by
  revert note
  decide

theorem Tuning.equalTempered_bounded {rate : UInt32} (hrate : rate.toNat ≤ 192000) :
    (equalTempered rate).Bounded := by
  intro note
  have hnote : note.toNat % 128 < 128 := Nat.mod_lt _ (by decide)
  have hlow := noteFrequency_ge ⟨note.toNat % 128, hnote⟩
  generalize hden : noteFrequency (UInt8.ofNat (note.toNat % 128)) = den at hlow
  have hperiod : ((equalTempered rate).period note).units =
      (periodUnits rate.toNat den).toUInt32.toNat := by
    unfold period equalTempered
    simp only [Vector.getElem_ofFn]
    rw [← hden]
    rfl
  have hnum : (rate.toNat * 65536) <<< 49 ≤ 192000 * 65536 * 2 ^ 49 := by
    rw [Nat.shiftLeft_eq]
    exact Nat.mul_le_mul_right _ (Nat.mul_le_mul_right _ hrate)
  rw [hperiod]
  calc (periodUnits rate.toNat den).toUInt32.toNat
      ≤ periodUnits rate.toNat den := by
        rw [Nat.toUInt32_eq, UInt32.toNat_ofNat']
        exact Nat.mod_le _ _
    _ ≤ Rounding.floorOfRounded ((rate.toNat * 65536) <<< 49) den := Nat.min_le_left _ _
    _ ≤ (rate.toNat * 65536) <<< 49 / den + 1 := Rounding.floorOfRounded_le _ _
    _ ≤ 192000 * 65536 * 2 ^ 49 / 0x105A0250C2B956 + 1 :=
        Nat.add_le_add_right (Nat.div_le_div hnum hlow (by decide)) 1
    _ ≤ 23500 * 65536 := by decide

/-! ## A rendering as a run -/

theorem toNat_samplesOfMilliseconds_le (ms : UInt64) (rate : UInt32) :
    (samplesOfMilliseconds ms rate).toNat ≤ (UInt64.size - 1) / 1000 := by
  unfold samplesOfMilliseconds
  rw [Nat.toUInt64_eq, UInt64.toNat_ofNat']
  exact Nat.le_trans (Nat.mod_le _ _) (Nat.div_le_div_right (Nat.min_le_right _ _))

namespace Patch

/-- The moves behind a rendering: whole batches of samples with the commands and
the modulation ticks between them. -/
def moves (p : Patch) : List Move :=
  score (p.player p.sampleRate).interval.toNat (p.eventList p.sampleRate)
    (Player.generatedFor (p.lengthSamples p.sampleRate).toNat 0)

/-- The loop behind a rendering. -/
def loop (p : Patch) : Loop Lfsr :=
  Loop.start (Synth.fresh p.sampleRate (Lfsr.seeded Lfsr.defaultSeed)) (p.eventList p.sampleRate)

/-- The samples between two modulation ticks. -/
def interval (p : Patch) : Nat := (p.player p.sampleRate).interval.toNat

/-- The samples generated for a rendering, in whole batches. -/
def generated (p : Patch) : Nat :=
  Player.generatedFor (p.lengthSamples p.sampleRate).toNat 0

theorem interval_pos (p : Patch) : 0 < p.interval := Player.toNat_max_one_pos _

theorem follows_loop (p : Patch) :
    Player.Follows (p.player p.sampleRate).interval (p.player p.sampleRate) p.loop :=
  Player.follows_start _ .empty (p.eventList p.sampleRate) (p.sampleRate / modulationRate)

/-- The clock never reaches its end. -/
theorem generated_lt (p : Patch) : p.generated < UInt64.size := by
  have hle := toNat_samplesOfMilliseconds_le p.lengthMs p.sampleRate
  unfold generated Player.generatedFor ringCapacity lengthSamples
  unfold UInt64.size at hle ⊢
  omega

/-- A rendering gives the first samples of the loop and the voices at its end, or it
faults as the loop does. -/
theorem render_cases (p : Patch) :
    (∃ xs l' r, p.loop.Reaches p.interval p.generated xs l' ∧ p.render = .ok r ∧
      r.samples.toList = xs.take (p.lengthSamples p.sampleRate).toNat ∧
      r.voices = l'.synth.voices) ∨
    (∃ halt, p.render = .error halt ∧ p.loop.run p.interval p.generated = .error halt.fault) := by
  have hheld : (p.player p.sampleRate).synth.ring.contents = [] := rfl
  rcases Player.take_cases p.interval_pos (p.lengthSamples p.sampleRate).toNat #[] p.follows_loop
    with ⟨xs, l', p', out, hreaches, htake, hfollows, hsplit, hsize⟩ | ⟨halt, htake, -, hfails⟩
  · refine Or.inl ⟨xs, l', _, hreaches, by simp only [render, htake]; rfl, ?_, ?_⟩
    · have hlength : out.toList.length = (p.lengthSamples p.sampleRate).toNat := by
        rw [Array.length_toList, hsize]
        exact Nat.zero_add _
      rw [hheld, List.nil_append] at hsplit
      rw [show xs = out.toList ++ p'.synth.ring.contents from hsplit, List.take_left' hlength]
    · -- the player and the loop have the same synthesizer but for the ring
      exact (congrArg Synth.voices hfollows.synth_eq).trans rfl
  · refine Or.inr ⟨halt, by simp only [render, htake]; rfl, ?_⟩
    rcases hfails with hloop | ⟨-, hsize⟩
    · exact hloop
    · have hclock := p.generated_lt
      have hzero : p.loop.index = 0 := rfl
      rw [hzero, Nat.zero_add] at hsize
      exact absurd hclock (Nat.not_lt.2 hsize)

/-- A rendering faults as its run does. -/
theorem render_eq_error (p : Patch) (f : Fault) :
    (∃ halt, p.render = .error halt ∧ halt.fault = f) ↔
      (Synth.fresh p.sampleRate (Lfsr.seeded Lfsr.defaultSeed)).run p.moves = .error f := by
  have hrun := Loop.run_score p.interval (p.eventList p.sampleRate)
    (Synth.fresh p.sampleRate (Lfsr.seeded Lfsr.defaultSeed)) p.generated
  rw [show p.moves = score p.interval _ p.generated from rfl, ← hrun]
  show _ ↔ (p.loop.run p.interval p.generated).map _ = _
  rcases p.render_cases with ⟨xs, l', r, ⟨hloop, -⟩, hrender, -⟩ | ⟨halt, hrender, hloop⟩
  · rw [hrender, hloop]
    constructor
    · rintro ⟨halt, herror, -⟩
      cases herror
    · intro herror
      cases herror
  · rw [hrender, hloop]
    constructor
    · rintro ⟨halt', herror, rfl⟩
      cases herror
      rfl
    · intro herror
      exact ⟨halt, rfl, Except.error.inj herror⟩

end Patch

/-! ## The faults of runs and renderings -/

/-- From a silent synthesizer with bounded periods, a run faults exactly when it
comes to a modulation tick that takes the period of a square out of the word, or
to a sample that takes its phase there. It does not fault when every vibrato
starts at a period not above that of the note. The renderings of valid patches
fault as their runs do, and their periods are bounded. -/
theorem faults_iff_overflows {ρ : Type} [BitSource ρ] :
    (∀ (t : Tuning) (source : ρ) (moves : List Move), t.Bounded →
      (∀ f, (Synth.tuned t source).run moves = .error f ↔ f = .addOverflow ∧
        ∃ first m rest s, moves = first ++ m :: rest ∧
          (Synth.tuned t source).run first = .ok s ∧ s.Overflows m) ∧
      ((∀ first m rest s, moves = first ++ m :: rest →
          (Synth.tuned t source).run first = .ok s → s.Centred m) →
        ∃ s, (Synth.tuned t source).run moves = .ok s)) ∧
    (∀ p : Patch, p.HasValidRate → (Tuning.equalTempered p.sampleRate).Bounded ∧
      ∀ f, (∃ halt, p.render = .error halt ∧ halt.fault = f) ↔
        (Synth.tuned (Tuning.equalTempered p.sampleRate)
          (Lfsr.seeded Lfsr.defaultSeed)).run p.moves = .error f) := by
  refine ⟨fun t source moves ht => ⟨fun f => ?_, fun hcentred => ?_⟩, fun p hp => ⟨?_, fun f => ?_⟩⟩
  · exact (Synth.sound_tuned ht source).run_eq_error
  · exact (Synth.steady_tuned ht source).run hcentred
  · exact Tuning.equalTempered_bounded (UInt32.le_iff_toNat_le.1 hp.2)
  · exact p.render_eq_error f

/-- A vibrato that starts once, at the period of the longest note, keeps to the
largest period that one vibrato reaches. -/
theorem faults_iff_overflows_for_one_vibrato :
    let t : Tuning := ⟨192000, Vector.replicate 128 ⟨1540096000⟩⟩
    let s := Synth.tuned t (Lfsr.seeded 1)
    let moves : List Move := .command (.address 0 (.noteOn 0 100)) ::
      .command (.address 0 (.configureVibrato ⟨127, 255⟩)) ::
        (List.replicate 13 [.modulate, .mix]).flatten
    t.Bounded ∧ (∀ first m rest u, moves = first ++ m :: rest → s.run first = .ok u → u.Centred m) ∧
      ∃ u, s.run moves = .ok u ∧ u.squareA.phase.period.units = 1760502500 := by
  intro t s moves
  have ht : t.Bounded := Tuning.bounded_uniform 192000 (by decide)
  have hcentred : ∀ first m rest u, moves = first ++ m :: rest → s.run first = .ok u →
      u.Centred m := by
    intro first m rest u hmoves hrun
    -- only the second move starts a vibrato
    rcases first with _ | ⟨m₁, _ | ⟨m₂, first⟩⟩
    · obtain ⟨rfl, -⟩ := List.cons.inj hmoves
      intro side action haction hstarts
      cases side with
      | a =>
        cases haction
        cases hstarts
      | b => cases haction
    · obtain ⟨rfl, hrest⟩ := List.cons.inj hmoves
      obtain ⟨rfl, -⟩ := List.cons.inj hrest
      have happlied : s.run [.command (.address 0 (.noteOn 0 100))] =
          .ok (s.applied (.address 0 (.noteOn 0 100))) :=
        Synth.run_cons_eq_ok.2 ⟨_, Synth.apply_eq s (.address 0 (.noteOn 0 100)), rfl⟩
      obtain rfl := Except.ok.inj (happlied.symm.trans hrun)
      intro side action haction _
      cases side with
      | a =>
        cases haction
        decide +kernel
      | b => cases haction
    · have htail : (List.replicate 13 [Move.modulate, Move.mix]).flatten = first ++ m :: rest :=
        (List.cons.inj (List.cons.inj hmoves).2).2
      have hm : m ∈ (List.replicate 13 [Move.modulate, Move.mix]).flatten := by
        rw [htail]
        exact List.mem_append_right _ List.mem_cons_self
      obtain ⟨pair, hpair, hm⟩ := List.mem_flatten.1 hm
      rw [List.eq_of_mem_replicate hpair] at hm
      rcases List.mem_cons.1 hm with rfl | hm
      · exact trivial
      · obtain rfl := List.mem_singleton.1 hm
        exact trivial
  obtain ⟨u, hu⟩ := ((faults_iff_overflows (ρ := Lfsr)).1 t (Lfsr.seeded 1) moves ht).2 hcentred
  have hperiod : (s.run moves).toOption.map (fun u => u.squareA.phase.period.units) =
      some 1760502500 := by
    decide +kernel
  rw [hu] at hperiod
  exact ⟨ht, hcentred, u, hu, Option.some.inj hperiod⟩

/-- A vibrato that is set up again on every tick climbs out of the word. -/
theorem restarted_vibrato_overflows :
    let t : Tuning := ⟨192000, Vector.replicate 128 ⟨1540096000⟩⟩
    let moves := .command (.address 0 (.noteOn 0 100)) :: (List.replicate 13
      [.command (.address 0 (.configureVibrato ⟨127, 255⟩)), .modulate]).flatten
    t.Bounded ∧ (Synth.tuned t (Lfsr.seeded 1)).run moves = .error .addOverflow := by
  intro t moves
  have ht : t.Bounded := Tuning.bounded_uniform 192000 (by decide)
  have hfault : (match (Synth.tuned t (Lfsr.seeded 1)).run moves with
      | .error f => some f
      | .ok _ => none) = some .addOverflow := by
    decide +kernel
  refine ⟨ht, ?_⟩
  cases hrun : (Synth.tuned t (Lfsr.seeded 1)).run moves with
  | error f =>
    rw [hrun] at hfault
    exact congrArg Except.error (Option.some.inj hfault)
  | ok s =>
    rw [hrun] at hfault
    cases hfault

end Chiptune
