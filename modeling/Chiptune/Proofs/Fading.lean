import Chiptune.Proofs.Coherence

/-!
# Released notes die out

A note with an envelope does not end with the command: its envelope goes into the release,
and each modulation tick takes a step off the factor. A step is at least the 127th part of
one, whatever the parameters of the envelope are and whenever they change, so 128 ticks
bring every factor to zero. The levels follow at the next opening of a cycle.

`Amplitude.Fading` counts the ticks. After the first of them the levels are those of the
factor unless it is pending, so an opening after the last one leaves no level
(`Fading.high_refresh`), and nothing but a new note brings one back. The next opening is no
further off than a period of the square or the longest count of the noise
(`later_cycle_of_drop`). This gives the end of every released note
(`released_notes_die_out`).
-/

set_option autoImplicit false

namespace Chiptune

/-! ## The release of an envelope -/

namespace Envelope

/-- A tick of the release takes the step off the factor and marks the factor. -/
theorem step_release {e e' : Envelope} (hstage : e.stage = .release) (hok : e.step = .ok e') :
    e'.factor.units = e.factor.units - e.releaseStep.units ∧ e'.pending = true ∧
      (e'.stage = .release ∨ e'.stage = .off) ∧ e'.enabled = e.enabled := by
  cases tick_of_step hok with
  | fade _ hsum _ => exact ⟨Nat.eq_sub_of_add_eq hsum, rfl, Or.inl hstage, rfl⟩
  | finish _ hle => exact ⟨(Nat.sub_eq_zero_of_le hle).symm, rfl, Or.inr rfl, rfl⟩
  | rest hrest => simp [hstage] at hrest
  | climb hother _ _ | sink hother _ _ => cases hstage.symm.trans hother
  | top hother _ | settle hother _ => cases hstage.symm.trans hother

/-- The release lasts 127 whole steps at the most. -/
theorem Coherent.releaseStep_ge {e : Envelope} (h : e.Coherent) : 516 ≤ e.releaseStep.units := by
  rw [h.units_steps.2.2]
  exact (stepUnits_bounds h.params_le.2.2.2 (by decide)).1

end Envelope

/-! ## Fading levels -/

namespace Amplitude

theorem scaledLevel_zero (limit : Int16) : scaledLevel limit Fixed.zero = 0 := by
  have hmul : (Fixed.ofInteger limit.toInt.natAbs.toUInt16).mul Fixed.zero = Fixed.zero := by
    apply Fixed.units_inj.1
    rw [Fixed.units_mul, Fixed.units_zero, Nat.mul_zero]
  simp only [scaledLevel, hmul]
  rfl

/-- The levels `ticks` modulation ticks into the release: that many steps are off the
factor, and if nothing is pending after one of them, the levels are those of the factor. -/
structure Fading (a : Amplitude) (ticks : Nat) : Prop where
  coherent : a.Coherent
  enabled : a.envelope.enabled = true
  stage : a.envelope.stage = .release ∨ (a.envelope.stage = .off ∧ 0 < ticks)
  factor_le : a.envelope.factor.units ≤ 65536 - 516 * ticks
  settled : 0 < ticks → a.envelope.pending = false →
    a.high = scaledLevel a.limit a.envelope.factor

theorem fading_stop {a : Amplitude} (h : a.Coherent) (henabled : a.envelope.enabled = true) :
    a.stop.Fading 0 := by
  have hcoherent := h.stop
  have hstop : a.stop = { a with envelope := a.envelope.release } := if_pos henabled
  rw [hstop] at hcoherent ⊢
  refine ⟨hcoherent, henabled, Or.inl rfl, h.envelope.bounded.factor_le, ?_⟩
  -- before the first tick the levels may be those of a note without an envelope
  intro hpos
  exact absurd hpos (Nat.lt_irrefl 0)

section Fading

variable {a a' : Amplitude} {ticks : Nat}

/-- The opening of a cycle brings the levels up to the factor. -/
theorem Fading.high_refresh (h : a.Fading ticks) (hpos : 0 < ticks) :
    a.refresh.high = scaledLevel a.limit a.envelope.factor := by
  rcases a.refresh_cases with ⟨hpending, hsame⟩ | ⟨-, htaken⟩
  · -- the factor was taken at an earlier opening
    rw [hsame]
    exact h.settled hpos hpending
  · rw [htaken]
    rfl

theorem Fading.refresh (h : a.Fading ticks) : a.refresh.Fading ticks := by
  have hcoherent := h.coherent.refresh
  rcases a.refresh_cases with ⟨-, hsame⟩ | ⟨-, htaken⟩
  · rw [hsame]
    exact h
  · rw [htaken] at hcoherent ⊢
    exact ⟨hcoherent, h.enabled, h.stage, h.factor_le, fun _ _ => rfl⟩

/-- A modulation tick is counted and leaves the levels alone. -/
theorem Fading.modulate (h : a.Fading ticks) (hok : a.modulate = .ok a') :
    a'.Fading (ticks + 1) ∧ a'.high = a.high := by
  have hcoherent := h.coherent.modulate hok
  rw [modulate_of_enabled h.enabled] at hok
  obtain ⟨e, hstep, hok⟩ := bind_eq_ok.1 hok
  cases hok
  refine ⟨?_, rfl⟩
  rcases h.stage with hrelease | ⟨hoff, hpos⟩
  · obtain ⟨hfactor, hpending, hstage, henabled⟩ := Envelope.step_release hrelease hstep
    have hge := h.coherent.envelope.releaseStep_ge
    have hle := h.factor_le
    refine ⟨hcoherent, henabled.trans h.enabled, ?_, ?_, ?_⟩
    · rcases hstage with hstage | hstage
      · exact Or.inl hstage
      · exact Or.inr ⟨hstage, Nat.succ_pos ticks⟩
    · show e.factor.units ≤ _
      omega
    · -- the tick has just marked the factor
      intro _ hunmarked
      rw [hpending] at hunmarked
      cases hunmarked
  · -- an envelope that is off stays as it is
    simp only [Envelope.step, hoff, Except.ok.injEq] at hstep
    subst hstep
    have hzero := h.coherent.envelope.off hoff
    refine ⟨hcoherent, h.enabled, Or.inr ⟨hoff, Nat.succ_pos ticks⟩, ?_, fun _ => h.settled hpos⟩
    rw [hzero]
    exact Nat.zero_le _

/-- New parameters of the envelope and another end of the note leave the factor and the
levels alone. -/
theorem Fading.performed (h : a.Fading ticks) {action : Action}
    (hkeeps : action.keepsNote = true) :
    (a.performed action).Fading ticks ∧ (a.performed action).high = a.high := by
  have hcoherent := h.coherent.performed action
  cases action with
  | noteOn note velocity => cases hkeeps
  | envelopeOff => cases hkeeps
  | noteOff =>
    have hstop : a.stop = { a with envelope := a.envelope.release } := if_pos h.enabled
    simp only [Amplitude.performed, hstop] at hcoherent ⊢
    exact ⟨⟨hcoherent, h.enabled, Or.inl rfl, h.factor_le, h.settled⟩, trivial⟩
  | configureEnvelope params =>
    exact ⟨⟨hcoherent, h.enabled, h.stage, h.factor_le, h.settled⟩, rfl⟩
  | envelopeOn => exact ⟨⟨hcoherent, rfl, h.stage, h.factor_le, h.settled⟩, rfl⟩
  | setDuty duty => exact ⟨h, rfl⟩
  | configureVibrato params => exact ⟨h, rfl⟩
  | vibratoOn => exact ⟨h, rfl⟩
  | vibratoOff => exact ⟨h, rfl⟩

/-- No factor is left after 128 ticks, as 128 times 516 is above 65536. -/
theorem Fading.factor_eq_zero (h : a.Fading ticks) (hticks : 128 ≤ ticks) :
    a.envelope.factor = Fixed.zero := by
  apply Fixed.units_inj.1
  have hle := h.factor_le
  rw [Fixed.units_zero]
  omega

end Fading

/-- The factor is gone, and so are the levels from the first opening on. -/
structure Faded (a : Amplitude) (cycle : Nat) : Prop where
  fading : ∃ ticks, 128 ≤ ticks ∧ a.Fading ticks
  silent : cycle ≠ 0 → a.high = 0

section Faded

variable {a a' : Amplitude} {cycle : Nat}

theorem Faded.eq_zero_of_emits (h : a.Faded cycle) {x : Int16} (hx : a.Emits x)
    (hcycle : cycle ≠ 0) : x = 0 := by
  obtain ⟨ticks, -, hfading⟩ := h.fading
  have hhigh := h.silent hcycle
  rcases hx with rfl | rfl
  · exact hhigh
  · apply Int16.toInt_inj.1
    rw [hfading.coherent.low_eq, hhigh]
    rfl

theorem Faded.refresh (h : a.Faded cycle) : a.refresh.Faded (cycle + 1) := by
  obtain ⟨ticks, hticks, hfading⟩ := h.fading
  refine ⟨⟨ticks, hticks, hfading.refresh⟩, ?_⟩
  intro _
  rw [hfading.high_refresh (by omega), hfading.factor_eq_zero hticks, scaledLevel_zero]

theorem Faded.modulate (h : a.Faded cycle) (hok : a.modulate = .ok a') : a'.Faded cycle := by
  obtain ⟨ticks, hticks, hfading⟩ := h.fading
  obtain ⟨hfading', hhigh⟩ := hfading.modulate hok
  refine ⟨⟨ticks + 1, by omega, hfading'⟩, ?_⟩
  rw [hhigh]
  exact h.silent

theorem Faded.performed (h : a.Faded cycle) {action : Action} (hkeeps : action.keepsNote = true) :
    (a.performed action).Faded cycle := by
  obtain ⟨ticks, hticks, hfading⟩ := h.fading
  obtain ⟨hfading', hhigh⟩ := hfading.performed hkeeps
  refine ⟨⟨ticks, hticks, hfading'⟩, ?_⟩
  rw [hhigh]
  exact h.silent

end Faded

end Amplitude

/-! ## Places in a cycle -/

/-- A vibrato moves the end of a cycle and not the place in it. -/
theorem Square.place_modulateVibrato {q q' : Square} (h : q.HasPlace)
    (hok : q.modulateVibrato = .ok q') :
    q'.phase.time = q.phase.time ∧ q'.isHigh = q.isHigh := by
  rcases modulateVibrato_cases h with ⟨-, herror⟩ | ⟨-, hsame⟩ |
    ⟨-, -, steps, place, period, time, rising, -, -, -, hok'⟩
  · rw [hok] at herror
    cases herror
  · rw [hok] at hsame
    cases hsame
    exact ⟨rfl, rfl⟩
  · rw [hok] at hok'
    cases hok'
    exact ⟨rfl, rfl⟩

/-- Of the actions only the start of a note sets the place in a cycle. -/
theorem Square.place_performed (q : Square) (t : Tuning) {action : Action}
    (hkeeps : action.keepsNote = true) :
    (q.performed t action).phase.time = q.phase.time ∧
      (q.performed t action).isHigh = q.isHigh := by
  cases action with
  | noteOn note velocity => cases hkeeps
  | envelopeOff => cases hkeeps
  | noteOff | setDuty _ | configureVibrato _ | vibratoOn | vibratoOff | configureEnvelope _
  | envelopeOn => exact ⟨rfl, rfl⟩

theorem Noise.counter_performed (n : Noise) {action : Action}
    (hkeeps : action.keepsNote = true) : (n.performed action).counter = n.counter := by
  cases action with
  | noteOn note velocity => cases hkeeps
  | envelopeOff => cases hkeeps
  | noteOff | setDuty _ | configureVibrato _ | vibratoOn | vibratoOff | configureEnvelope _
  | envelopeOn => rfl

/-- So many samples reach into the next cycle of a voice: two more than a period of `n`
samples, or one more than the longest count of the noise. -/
def Switching.longestCycle (n : Nat) : Switching → Nat
  | .square _ => n + 2
  | .noise => 129

/-! ## Runs -/

namespace Synth

variable {ρ : Type} [BitSource ρ] {v : Switching}

theorem Reachable.coherent_amplitude {s : Synth ρ} (h : s.Reachable) (v : Switching) :
    (s.amplitude v).Coherent := by
  have hpart := h.coherent v.channel
  cases v with
  | square side =>
    simp only [Switching.channel, part_side] at hpart
    exact Square.Coherent.amplitude hpart
  | noise => exact Noise.Coherent.amplitude hpart

/-- A move counts as a tick if it is one. -/
theorem fading_move {s s' : Synth ρ} {m : Move} {ticks : Nat} (h : (s.amplitude v).Fading ticks)
    (hkeeps : m.KeepsNote v) (hok : s.move m = .ok s') :
    (s'.amplitude v).Fading (ticks + [m].count .modulate) := by
  by_cases hm : s.Samples m
  · have hne : m ≠ .modulate := by
      rintro rfl
      exact hm
    obtain ⟨-, -, -, -, hamplitude, -⟩ := hear_of_samples hm hok v 0
    rw [List.count_singleton, beq_false_of_ne hne, hamplitude]
    split
    · exact h.refresh
    · exact h
  · rcases amplitude_of_not_samples hm hok v with ⟨rfl, hmodulate⟩ | ⟨action, haction, hperformed⟩ |
      ⟨hne, hsame⟩
    · exact (h.modulate hmodulate).1
    · have hne : m ≠ .modulate := by
        rintro rfl
        cases haction
      rw [List.count_singleton, beq_false_of_ne hne, hperformed]
      exact (h.performed (hkeeps action haction)).1
    · rw [List.count_singleton, beq_false_of_ne hne, hsame]
      exact h

theorem fading_run (moves : List Move) {s s' : Synth ρ} {ticks : Nat}
    (h : (s.amplitude v).Fading ticks) (hkeeps : ∀ m ∈ moves, m.KeepsNote v)
    (hrun : s.run moves = .ok s') : (s'.amplitude v).Fading (ticks + moves.count .modulate) := by
  induction moves generalizing s ticks with
  | nil =>
    cases hrun
    exact h
  | cons m moves ih =>
    obtain ⟨s₁, hok, hrest⟩ := run_cons_eq_ok.1 hrun
    have h₁ := fading_move h (hkeeps m List.mem_cons_self) hok
    have h' := ih h₁ (fun m' hm' => hkeeps m' (List.mem_cons_of_mem m hm')) hrest
    rwa [Nat.add_assoc, ← List.count_append] at h'

/-- Samples from the second cycle on have no level left. -/
theorem heard_of_faded (moves : List Move) {s : Synth ρ} {cycle : Nat}
    (h : (s.amplitude v).Faded cycle) (hkeeps : ∀ m ∈ moves, m.KeepsNote v) :
    ∀ sound ∈ heard v moves s cycle, sound.cycle ≠ 0 → sound.sample = 0 := by
  -- along the moves, with the number of the cycle as part of the invariant
  induction moves generalizing s cycle with
  | nil =>
    intro sound hsound
    cases hsound
  | cons m moves ih =>
    have hrest : ∀ m' ∈ moves, m'.KeepsNote v := by
      intro m' hm'
      exact hkeeps m' (List.mem_cons_of_mem m hm')
    intro sound hsound
    cases hok : s.move m with
    | error f =>
      simp only [heard, hok] at hsound
      cases hsound
    | ok s' =>
      by_cases hm : s.Samples m
      · obtain ⟨first, cycle', hhear, hcycle, hamplitude, hfirst⟩ :=
          hear_of_samples hm hok v cycle
        have h' : (s'.amplitude v).Faded cycle' := by
          rw [hamplitude, hcycle]
          split
          · exact h.refresh
          · exact h
        simp only [heard, hok, if_pos hm, hhear] at hsound
        rcases List.mem_cons.1 hsound with rfl | hsound
        · rcases hfirst with ⟨hnow, hemits⟩ | ⟨hnow, hemits⟩
          · rw [hnow]
            exact h.eq_zero_of_emits hemits
          · rw [hnow]
            exact h'.eq_zero_of_emits hemits
        · exact ih h' hrest sound hsound
      · simp only [heard, hok, if_neg hm] at hsound
        refine ih ?_ hrest sound hsound
        rcases amplitude_of_not_samples hm hok v with ⟨-, hmodulate⟩ |
          ⟨action, haction, hperformed⟩ | ⟨-, hsame⟩
        · exact h.modulate hmodulate
        · rw [hperformed]
          exact h.performed (hkeeps m List.mem_cons_self action haction)
        · rw [hsame]
          exact h

/-! ## The next opening -/

/-- A square has a period, and it is at most `n` samples long. The noise counts whatever its
state. -/
def CycleWithin (v : Switching) (n : Nat) (s : Synth ρ) : Prop :=
  match v with
  | .square side => (s.square side).phase.period ≠ Fixed.zero ∧
      (s.square side).phase.period.units ≤ n * 65536
  | .noise => True

instance (v : Switching) (n : Nat) (s : Synth ρ) : Decidable (s.CycleWithin v n) :=
  match v with
  | .square _ => inferInstanceAs (Decidable (_ ∧ _))
  | .noise => inferInstanceAs (Decidable True)

/-- The samples up to and with the next opening of a cycle are at most this many. -/
def wait (v : Switching) (n : Nat) (s : Synth ρ) : Nat :=
  match v with
  | .square side => (s.square side).phase.wait (n * 65536) (!(s.square side).isHigh)
  | .noise => s.noise.counter.toNat + 1

omit [BitSource ρ] in
theorem wait_pos (v : Switching) (n : Nat) (s : Synth ρ) : 0 < s.wait v n := by
  cases v with
  | square side => exact Phase.wait_pos _ _ _
  | noise => exact Nat.succ_pos _

/-- A count of the noise is never above 128. -/
theorem Reachable.wait_le {s : Synth ρ} (hs : s.Reachable) (v : Switching) (n : Nat) :
    s.wait v n ≤ v.longestCycle n := by
  cases v with
  | square side =>
    have hle := Phase.wait_le (n * 65536) (s.square side).phase (!(s.square side).isHigh)
    rwa [Nat.mul_div_cancel n (by decide)] at hle
  | noise =>
    have hcoherent : s.noise.Coherent := hs.coherent .noise
    have hcounter := UInt8.le_iff_toNat_le.1 hcoherent.counter_le
    have hprescaler := UInt8.le_iff_toNat_le.1 hcoherent.prescaler_le
    exact Nat.succ_le_succ (Nat.le_trans hcounter hprescaler)

section Openings

variable {s s' : Synth ρ} {m : Move} {n : Nat}

/-- A sample that opens no cycle brings the next opening nearer. -/
theorem Reachable.wait_lt (hs : s.Reachable) (hm : s.Samples m) (hok : s.move m = .ok s')
    (hcycle : s.CycleWithin v n) (hstays : ¬ s.opens v = true) : s'.wait v n < s.wait v n := by
  obtain ⟨x, s₁, hmix, ring, rfl⟩ := move_of_samples hm hok
  obtain ⟨hsquare, ⟨y, hnoise⟩, -⟩ := mix_eq_ok hmix
  cases v with
  | square side =>
    obtain ⟨y, hnext⟩ := hsquare side
    obtain ⟨hpos, hperiod⟩ := hcycle
    have hpart := hs.coherent side.channel
    rw [part_side] at hpart
    have hedge := Fixed.le_iff_units.1 (Square.Coherent.phase hpart).edge_le
    simp only [wait, square_withRing]
    refine (Square.tick_of_next hpos hnext).wait_lt ?_ (Nat.le_trans hedge hperiod) hperiod
    intro hhigh
    simp only [opens, hnext, Bool.and_eq_true, not_and, Bool.not_eq_true'] at hstays
    simpa using hstays (by simpa using hhigh)
  | noise =>
    have hne : s.noise.counter ≠ 0 := by simpa [opens] using hstays
    rcases s.noise.next_cases s.source with ⟨hzero, -⟩ | ⟨-, hcounts⟩
    · exact absurd hzero hne
    · have hnow : s₁.noise = { s.noise with counter := s.noise.counter - 1 } :=
        congrArg (fun r => r.2.1) (Except.ok.inj (hnoise.symm.trans hcounts))
      have hone : 1 ≤ s.noise.counter.toNat :=
        Nat.pos_of_ne_zero fun hzero => hne (UInt8.toNat_inj.1 hzero)
      have hless : (s.noise.counter - 1).toNat = s.noise.counter.toNat - 1 :=
        UInt8.toNat_sub_of_le _ _ (UInt8.le_iff_toNat_le.2 hone)
      show s₁.noise.counter.toNat + 1 < s.noise.counter.toNat + 1
      rw [hnow]
      show (s.noise.counter - 1).toNat + 1 < s.noise.counter.toNat + 1
      omega

/-- Between samples the next opening stays where it is until a note starts. -/
theorem Reachable.wait_eq (hs : s.Reachable) (hkeeps : m.KeepsNote v) (hm : ¬ s.Samples m)
    (hok : s.move m = .ok s') : s'.wait v n = s.wait v n := by
  cases v with
  | square side =>
    have hplace : (s'.square side).phase.time = (s.square side).phase.time ∧
        (s'.square side).isHigh = (s.square side).isHigh := by
      rcases move_square hok side with ⟨hyes, -⟩ | ⟨-, q, hvibrato, henvelope⟩ |
        ⟨c, action, rfl, haction, hq⟩ | hsame
      · exact absurd hyes hm
      · have hpart := hs.coherent side.channel
        rw [part_side] at hpart
        have hsame := Square.place_modulateVibrato (Square.Coherent.hasPlace hpart) hvibrato
        obtain ⟨amplitude, -, hq⟩ := Square.modulateEnvelope_eq_ok.1 henvelope
        rw [← hq]
        exact hsame
      · rw [hq]
        exact Square.place_performed _ _ (hkeeps action haction)
      · rw [hsame]
        exact ⟨rfl, rfl⟩
    simp only [wait, Phase.wait, hplace.1, hplace.2]
  | noise =>
    have hcounter : s'.noise.counter = s.noise.counter := by
      rcases move_noise hok with ⟨hyes, -⟩ | ⟨-, hmodulate⟩ | ⟨c, action, rfl, haction, hn⟩ | hsame
      · exact absurd hyes hm
      · obtain ⟨amplitude, -, hn⟩ := Noise.modulateEnvelope_eq_ok.1 hmodulate
        rw [← hn]
      · rw [hn]
        exact Noise.counter_performed _ (hkeeps action haction)
      · rw [hsame]
    simp only [wait, hcounter]

end Openings

/-- From the next opening on the samples belong to later cycles. -/
theorem later_cycle_of_drop (moves : List Move) {s : Synth ρ} {n cycle left : Nat}
    (hs : s.Reachable) (hkeeps : ∀ m ∈ moves, m.KeepsNote v)
    (hcycles : ∀ u ∈ sampled moves s, u.CycleWithin v n)
    (hleft : cycle = 0 → s.wait v n ≤ left) :
    ∀ sound ∈ (heard v moves s cycle).drop left, sound.cycle ≠ 0 := by
  -- along the moves, with the samples left to the next opening as the invariant
  induction moves generalizing s cycle left with
  | nil =>
    intro sound hsound
    rw [heard, List.drop_nil] at hsound
    cases hsound
  | cons m moves ih =>
    have hrest : ∀ m' ∈ moves, m'.KeepsNote v := by
      intro m' hm'
      exact hkeeps m' (List.mem_cons_of_mem m hm')
    intro sound hsound
    cases hok : s.move m with
    | error f =>
      simp only [heard, hok, List.drop_nil] at hsound
      cases hsound
    | ok s' =>
      rw [sampled_cons hok] at hcycles
      by_cases hm : s.Samples m
      · obtain ⟨first, cycle', hhear, hcycle, -, hfirst⟩ := hear_of_samples hm hok v cycle
        rw [if_pos hm] at hcycles
        obtain ⟨hnow, hlater⟩ := List.forall_mem_cons.1 hcycles
        simp only [heard, hok, if_pos hm, hhear] at hsound
        cases left with
        | zero =>
          -- no sample is left, so a later cycle has begun
          have hne : cycle ≠ 0 := by
            intro hzero
            exact Nat.not_le.2 (s.wait_pos v n) (hleft hzero)
          have hne' : cycle' ≠ 0 := by
            rw [hcycle]
            split <;> omega
          rcases List.mem_cons.1 hsound with rfl | hsound
          · rcases hfirst with ⟨hold, -⟩ | ⟨hnew, -⟩
            · rw [hold]
              exact hne
            · rw [hnew]
              exact hne'
          · have hdrop : sound ∈ (heard v moves s' cycle').drop 0 := hsound
            exact ih (hs.move hok) hrest hlater (fun hzero => absurd hzero hne') sound hdrop
        | succ left =>
          refine ih (hs.move hok) hrest hlater ?_ sound hsound
          intro hzero
          have hstays : ¬ s.opens v = true := by
            intro hopens
            rw [hcycle, if_pos hopens] at hzero
            cases hzero
          rw [hcycle, if_neg hstays] at hzero
          have hlt := hs.wait_lt hm hok hnow hstays
          have hle := hleft hzero
          omega
      · rw [if_neg hm] at hcycles
        simp only [heard, hok, if_neg hm] at hsound
        refine ih (hs.move hok) hrest hcycles ?_ sound hsound
        rw [hs.wait_eq (hkeeps m List.mem_cons_self) hm hok]
        exact hleft

/-- The end of a note with an enabled envelope, and until the next note or until the
envelope is disabled: once 128 modulation ticks have passed, the factor is zero, and from
the next opening of a cycle on every sample of the voice is zero. If the periods of a square
are at most `n` samples, that opening comes within `n + 2` samples; that of the noise always
comes within 129. -/
theorem released_notes_die_out {s : Synth ρ} (hs : s.Reachable) (v : Switching) (c : Command)
    (moves : List Move) (henabled : (s.amplitude v).envelope.enabled = true)
    (hc : c.actionFor v.channel = some .noteOff) (hkeeps : ∀ m ∈ moves, m.KeepsNote v) :
    ∃ s₁, s.apply c = .ok s₁ ∧
      ∀ first rest s₂, moves = first ++ rest → s₁.run first = .ok s₂ →
        128 ≤ first.count .modulate →
        (s₂.amplitude v).envelope.factor = Fixed.zero ∧
        (∀ sound ∈ heard v rest s₂ 0, sound.cycle ≠ 0 → sound.sample = 0) ∧
        ∀ n, (∀ u ∈ sampled rest s₂, u.CycleWithin v n) →
          ∀ sound ∈ (heard v rest s₂ 0).drop (v.longestCycle n),
            sound.cycle ≠ 0 ∧ sound.sample = 0 := by
  refine ⟨s.applied c, apply_eq s c, ?_⟩
  intro first rest s₂ hmoves hrun hticks
  have hfirst : ∀ m ∈ first, m.KeepsNote v := by
    intro m hm
    exact hkeeps m (hmoves ▸ List.mem_append_left rest hm)
  have hrest : ∀ m ∈ rest, m.KeepsNote v := by
    intro m hm
    exact hkeeps m (hmoves ▸ List.mem_append_right first hm)
  have hstart : ((s.applied c).amplitude v).Fading 0 := by
    rw [amplitude_command hc]
    exact Amplitude.fading_stop (hs.coherent_amplitude v) henabled
  have hfading := fading_run first hstart hfirst hrun
  rw [Nat.zero_add] at hfading
  have hfaded : (s₂.amplitude v).Faded 0 :=
    ⟨⟨_, hticks, hfading⟩, fun hne => absurd rfl hne⟩
  have hsilent := heard_of_faded rest hfaded hrest
  refine ⟨hfading.factor_eq_zero hticks, hsilent, ?_⟩
  intro n hcycles sound hsound
  have hs₂ : s₂.Reachable := (hs.applied c).run hrun
  have hlater := later_cycle_of_drop rest hs₂ hrest hcycles (fun _ => hs₂.wait_le v n) sound hsound
  exact ⟨hlater, hsilent sound (List.mem_of_mem_drop hsound) hlater⟩

/-- A square with a period of two samples and the noise, at the slowest release. -/
theorem released_notes_die_out_for_slow_release :
    let s := tuned ⟨48000, Vector.replicate 128 ⟨131072⟩⟩ (Lfsr.seeded 1)
    let setup : List Move :=
      [.command (.address 0 (.configureEnvelope ⟨0, 0, 127, 127⟩)),
        .command (.address 0 .envelopeOn),
        .command (.address 3 (.configureEnvelope ⟨0, 0, 127, 127⟩)),
        .command (.address 3 .envelopeOn), .command (.address 0 (.noteOn 69 100)),
        .command (.address 3 (.noteOn 125 50)), .modulate, .mix, .mix, .mix, .mix, .mix]
    let ticks : List Move := List.replicate 128 .modulate
    let rest : List Move := List.replicate 132 .mix
    let voices : List Switching := [.square .a, .noise]
    ∃ u, s.run setup = .ok u ∧ u.Reachable ∧
      (u.amplitude (.square .a)).envelope.factor = Fixed.one ∧
      (u.amplitude .noise).envelope.factor = Fixed.one ∧
      ∃ s₁, u.apply .allNotesOff = .ok s₁ ∧ ∃ s₂, s₁.run ticks = .ok s₂ ∧
        (heard (.square .a) rest s₂ 0).take 4 = [⟨0, 3200⟩, ⟨1, 0⟩, ⟨1, 0⟩, ⟨2, 0⟩] ∧
        (heard .noise rest s₂ 0).take 4 = [⟨0, 1600⟩, ⟨0, 1600⟩, ⟨1, 0⟩, ⟨1, 0⟩] ∧
        (∀ w ∈ sampled rest s₂, w.CycleWithin (.square .a) 2) ∧
        ∀ v ∈ voices, (s₂.amplitude v).envelope.factor = Fixed.zero ∧
          (heard v rest s₂ 0).length = 132 ∧
          ∀ sound ∈ (heard v rest s₂ 0).drop (v.longestCycle 2),
            sound.cycle ≠ 0 ∧ sound.sample = 0 := by
  intro s setup ticks rest voices
  have hsetup : (s.run setup).toOption.map (fun u => voices.map fun v =>
      ((u.amplitude v).envelope.enabled, (u.amplitude v).envelope.factor)) =
      some [(true, Fixed.one), (true, Fixed.one)] := by
    decide +kernel
  have hrelease : ((s.run setup).toOption.bind fun u =>
      ((u.applied .allNotesOff).run ticks).toOption).map (fun (s₂ : Synth Lfsr) =>
        (voices.map fun v => ((heard v rest s₂ 0).take 4, (heard v rest s₂ 0).length),
          decide (∀ w ∈ sampled rest s₂, w.CycleWithin (.square .a) 2))) =
      some ([([⟨0, 3200⟩, ⟨1, 0⟩, ⟨1, 0⟩, ⟨2, 0⟩], 132),
        ([⟨0, 1600⟩, ⟨0, 1600⟩, ⟨1, 0⟩, ⟨1, 0⟩], 132)], true) := by
    decide +kernel
  obtain ⟨u, hrun, hu⟩ := exists_ok_of_toOption hsetup
  rw [hrun] at hrelease
  obtain ⟨s₂, hticks, hheard⟩ :=
    exists_ok_of_toOption (x := (u.applied .allNotesOff).run ticks) hrelease
  simp only [voices, List.map_cons, List.map_nil, Prod.mk.injEq, List.cons.injEq, and_true,
    decide_eq_true_eq] at hu hheard
  obtain ⟨⟨hsquare, hfactor⟩, hnoise, hfactor'⟩ := hu
  obtain ⟨⟨⟨htake, hlength⟩, htake', hlength'⟩, hcycles⟩ := hheard
  have hreachable : u.Reachable := (Reachable.tuned _ _).run hrun
  have hdies (v : Switching) (henabled : (u.amplitude v).envelope.enabled = true)
      (hcycles : ∀ w ∈ sampled rest s₂, w.CycleWithin v 2) :
      (s₂.amplitude v).envelope.factor = Fixed.zero ∧
        ∀ sound ∈ (heard v rest s₂ 0).drop (v.longestCycle 2),
          sound.cycle ≠ 0 ∧ sound.sample = 0 := by
    have hkeeps : ∀ m ∈ ticks ++ rest, m.KeepsNote v := by
      intro m hm action haction
      rcases List.mem_append.1 hm with hm | hm
      all_goals
        obtain rfl := List.eq_of_mem_replicate hm
        cases haction
    obtain ⟨s₁, hs₁, hfades⟩ := released_notes_die_out hreachable v .allNotesOff (ticks ++ rest)
      henabled rfl hkeeps
    obtain rfl : u.applied .allNotesOff = s₁ := Except.ok.inj ((apply_eq _ _).symm.trans hs₁)
    obtain ⟨hzero, -, hsilent⟩ := hfades ticks rest s₂ rfl hticks List.count_replicate_self.ge
    exact ⟨hzero, hsilent 2 hcycles⟩
  refine ⟨u, hrun, hreachable, hfactor, hfactor', _, apply_eq u .allNotesOff, s₂, hticks, htake,
    htake', hcycles, ?_⟩
  intro v hv
  rcases List.mem_cons.1 hv with rfl | hv
  · obtain ⟨hzero, hsilent⟩ := hdies (.square .a) hsquare hcycles
    exact ⟨hzero, hlength, hsilent⟩
  · obtain rfl := List.mem_singleton.1 hv
    obtain ⟨hzero, hsilent⟩ := hdies .noise hnoise (fun _ _ => trivial)
    exact ⟨hzero, hlength', hsilent⟩

end Synth

end Chiptune
