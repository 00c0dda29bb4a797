import Chiptune.Proofs.Coherence
import Mathlib.Algebra.Order.Floor.Div

/-!
# The course of an envelope

Each stage of an envelope is a straight line: the attack climbs to one, the decay sinks to
the sustain level, the release fades to zero. A step is a reciprocal with its fraction cut
off, so the last step of a stage is usually a partial one and a stage may take one tick more
than its parameter says.

`noteCourse` gives the stage and the factor at every tick of a note, `releaseCourse` at every
tick after its end. A tick of the envelope leads from one place of a course to the next
(`Tick.noteCourse_succ`, `Tick.releaseCourse_succ`), so every number of ticks leads along it
(`after_trigger`, `after_release`). `envelope_follows_course` says this of every envelope that
arises (`Built`), with the number of ticks that each stage takes.
-/

set_option autoImplicit false

namespace Chiptune

/-- A tick in this stage moves the factor. -/
def Stage.moves : Stage → Bool
  | .off | .sustain => false
  | .attack | .decay | .release => true

namespace Envelope

/-! ## Courses -/

/-- The ticks until the attack has reached one. -/
def attackTicks (e : Envelope) : Nat := 65536 ⌈/⌉ e.attackStep.units

/-- The ticks until the decay has reached the sustain level. -/
def decayTicks (e : Envelope) : Nat := (65536 - e.sustainFactor.units) ⌈/⌉ e.decayStep.units

/-- The ticks until the release has reached zero. It takes one even from zero. -/
def releaseTicks (e : Envelope) : Nat := max 1 (e.factor.units ⌈/⌉ e.releaseStep.units)

/-- The stage and the factor so many ticks after the start of a note. -/
def noteCourse (e : Envelope) (k : Nat) : Stage × Nat :=
  if k < e.attackTicks then (.attack, k * e.attackStep.units)
  else if k < e.attackTicks + e.decayTicks then
    (.decay, 65536 - (k - e.attackTicks) * e.decayStep.units)
  else (.sustain, e.sustainFactor.units)

/-- The stage and the factor so many ticks after the end of a note. -/
def releaseCourse (e : Envelope) (k : Nat) : Stage × Nat :=
  if k < e.releaseTicks then (.release, e.factor.units - k * e.releaseStep.units)
  else (.off, 0)

/-- The envelope after some ticks and nothing else. -/
def after (e : Envelope) : Nat → Except Fault Envelope
  | 0 => .ok e
  | k + 1 => do (← after e k).step

/-! ## The length of a stage -/

theorem lt_ceilDiv {a step k : Nat} (hstep : 0 < step) : k < a ⌈/⌉ step ↔ k * step < a := by
  rw [← Nat.not_le, ceilDiv_le_iff_le_mul hstep, Nat.not_le, Nat.mul_comm]

section Length

variable {e : Envelope}

theorem Coherent.steps_pos (h : e.Coherent) :
    0 < e.attackStep.units ∧ 0 < e.decayStep.units ∧ 0 < e.releaseStep.units := by
  obtain ⟨hattack, hdecay, -, hrelease⟩ := h.params_le
  obtain ⟨ha, hd, hr⟩ := h.units_steps
  have hattack' := (stepUnits_bounds hattack (Nat.le_refl 65536)).1
  have hdecay' := (stepUnits_bounds hdecay (Nat.le_refl 65536)).1
  have hrelease' := (stepUnits_bounds hrelease (by omega : 65536 ≤ 131072)).1
  omega

/-- Even the highest sustain level is below one. -/
theorem Coherent.sustain_lt (h : e.Coherent) : e.sustainFactor.units < 65536 := by
  have hsustain := h.params_le.2.2.1
  rw [h.sustain_eq]
  omega

/-- A way of at most one takes at most one tick more than the stage lasts. -/
theorem ceilDiv_stepUnits_le {way ticks instant : Nat} (hway : way ≤ 65536) (hticks : ticks ≤ 127)
    (hinstant : 65536 ≤ instant) : way ⌈/⌉ stepUnits ticks instant ≤ ticks + 1 := by
  obtain ⟨hstep, hcovers⟩ := stepUnits_bounds hticks hinstant
  exact (ceilDiv_le_iff_le_mul (by omega)).2 (by omega)

theorem Coherent.attackTicks_bounds (h : e.Coherent) :
    1 ≤ e.attackTicks ∧ e.attackTicks ≤ e.params.attack.toNat + 1 := by
  constructor
  · exact (lt_ceilDiv h.steps_pos.1).2 (by omega)
  · rw [attackTicks, h.units_steps.1]
    exact ceilDiv_stepUnits_le (Nat.le_refl _) h.params_le.1 (Nat.le_refl _)

theorem Coherent.decayTicks_bounds (h : e.Coherent) :
    1 ≤ e.decayTicks ∧ e.decayTicks ≤ e.params.decay.toNat + 1 := by
  have hsustain := h.sustain_lt
  constructor
  · exact (lt_ceilDiv h.steps_pos.2.1).2 (by omega)
  · rw [decayTicks, h.units_steps.2.1]
    exact ceilDiv_stepUnits_le (by omega) h.params_le.2.1 (Nat.le_refl _)

theorem Coherent.releaseTicks_bounds (h : e.Coherent) :
    1 ≤ e.releaseTicks ∧ e.releaseTicks ≤ e.params.release.toNat + 1 := by
  have hceil : e.factor.units ⌈/⌉ e.releaseStep.units ≤ e.params.release.toNat + 1 := by
    rw [h.units_steps.2.2]
    exact ceilDiv_stepUnits_le h.bounded.factor_le h.params_le.2.2.2 (by omega)
  simp only [releaseTicks]
  omega

end Length

/-! ## One tick -/

/-- The steps and the sustain level, which no tick changes. -/
def ramps (e : Envelope) : Fixed × Fixed × Fixed × Fixed :=
  (e.attackStep, e.decayStep, e.sustainFactor, e.releaseStep)

section Tick

variable {c e e' : Envelope} {k : Nat}

theorem Tick.ramps_eq (h : Tick e e') : e'.ramps = e.ramps := by
  cases h <;> rfl

/-- A tick leaves the envelope as it is, or it marks the factor; the stage decides. -/
theorem Tick.rests_or_marks (h : Tick e e') :
    (e.stage.moves = false ∧ e' = e) ∨ (e.stage.moves = true ∧ e'.pending = true) := by
  cases h with
  | rest hstage =>
    refine Or.inl ⟨?_, rfl⟩
    rcases hstage with hstage | hstage
    · rw [hstage]
      rfl
    · rw [hstage]
      rfl
  | climb hstage _ _ | sink hstage _ _ | fade hstage _ _ =>
    refine Or.inr ⟨?_, rfl⟩
    rw [hstage]
    rfl
  | top hstage _ | settle hstage _ | finish hstage _ =>
    refine Or.inr ⟨?_, rfl⟩
    rw [hstage]
    rfl

theorem Tick.pending_eq (h : Tick e e') : e'.pending = (e.pending || e.stage.moves) := by
  rcases h.rests_or_marks with ⟨hrests, rfl⟩ | ⟨hmoves, hmarked⟩
  · rw [hrests, Bool.or_false]
  · rw [hmoves, Bool.or_true, hmarked]

theorem Tick.eq_of_rests (h : Tick e e') (hrests : e.stage.moves = false) : e' = e := by
  rcases h.rests_or_marks with ⟨-, hsame⟩ | ⟨hmoves, -⟩
  · exact hsame
  · rw [hrests] at hmoves
    cases hmoves

theorem noteCourse_of_attack (h : k < c.attackTicks) :
    c.noteCourse k = (.attack, k * c.attackStep.units) := if_pos h

theorem noteCourse_of_decay {j : Nat} (h : j < c.decayTicks) :
    c.noteCourse (c.attackTicks + j) = (.decay, 65536 - j * c.decayStep.units) := by
  rw [noteCourse, if_neg (by omega), if_pos (by omega), Nat.add_sub_cancel_left]

theorem noteCourse_of_sustain (h : c.attackTicks + c.decayTicks ≤ k) :
    c.noteCourse k = (.sustain, c.sustainFactor.units) := by
  rw [noteCourse, if_neg (by omega), if_neg (by omega)]

/-- A tick of the attack leads on, or to the top at the end of the attack. -/
theorem Tick.noteCourse_of_attack (htick : Tick e e') (hc : c.Coherent)
    (hramps : e.ramps = c.ramps) (hk : k < c.attackTicks) (hstage : e.stage = .attack)
    (hfactor : e.factor.units = k * c.attackStep.units) :
    (e'.stage, e'.factor.units) = c.noteCourse (k + 1) := by
  have hattack : e.attackStep = c.attackStep := congrArg Prod.fst hramps
  have hpos := hc.steps_pos.1
  have hnext : e.factor.units + e.attackStep.units = (k + 1) * c.attackStep.units := by
    rw [hfactor, hattack, Nat.succ_mul]
  cases htick with
  | climb _ hunits hlt =>
    -- the sum is below one exactly as long as the attack lasts
    rw [hunits, hnext] at hlt
    rw [Envelope.noteCourse_of_attack ((lt_ceilDiv hpos).2 hlt)]
    simp only [hstage, hunits, hnext]
  | top _ hle =>
    -- whatever the last step leaves over is cut off, so the decay begins at one
    have hlast : k + 1 = c.attackTicks + 0 := by
      have hover : ¬ k + 1 < c.attackTicks := by
        rw [attackTicks, lt_ceilDiv hpos]
        omega
      omega
    rw [hlast, noteCourse_of_decay hc.decayTicks_bounds.1, Nat.zero_mul]
    rfl
  | rest hrest => simp [hstage] at hrest
  | sink hother _ _ | fade hother _ _ => cases hstage.symm.trans hother
  | settle hother _ | finish hother _ => cases hstage.symm.trans hother

/-- A tick of the decay leads on, or to the sustain level at the end of the decay. -/
theorem Tick.noteCourse_of_decay (htick : Tick e e') (hc : c.Coherent)
    (hramps : e.ramps = c.ramps) {j : Nat} (hj : j < c.decayTicks) (hstage : e.stage = .decay)
    (hfactor : e.factor.units = 65536 - j * c.decayStep.units) :
    (e'.stage, e'.factor.units) = c.noteCourse (c.attackTicks + j + 1) := by
  have hdecay : e.decayStep = c.decayStep := congrArg (fun r => r.2.1) hramps
  have hsustain : e.sustainFactor = c.sustainFactor := congrArg (fun r => r.2.2.1) hramps
  have hpos := hc.steps_pos.2.1
  have hbelow : j * c.decayStep.units < 65536 - c.sustainFactor.units := (lt_ceilDiv hpos).1 hj
  have hnext : (j + 1) * c.decayStep.units = j * c.decayStep.units + c.decayStep.units :=
    Nat.succ_mul _ _
  cases htick with
  | sink _ hsum hlt =>
    rw [hdecay, hfactor] at hsum
    rw [hsustain] at hlt
    have hmore : j + 1 < c.decayTicks := by
      rw [decayTicks, lt_ceilDiv hpos, hnext]
      omega
    rw [Nat.add_assoc, Envelope.noteCourse_of_decay hmore, hnext]
    simp only [hstage, Prod.mk.injEq, true_and]
    omega
  | settle _ hle =>
    -- at most one step is left to the sustain level, and the last one may be cut short
    rw [hdecay, hsustain, hfactor] at hle
    have hend : ¬ j + 1 < c.decayTicks := by
      rw [decayTicks, lt_ceilDiv hpos, hnext]
      omega
    rw [noteCourse_of_sustain (by omega)]
    simp only [hsustain]
  | rest hrest => simp [hstage] at hrest
  | climb hother _ _ | fade hother _ _ => cases hstage.symm.trans hother
  | top hother _ | finish hother _ => cases hstage.symm.trans hother

/-- A tick leads from each place of a note to the next. -/
theorem Tick.noteCourse_succ (htick : Tick e e') (hc : c.Coherent) (hramps : e.ramps = c.ramps)
    (hplace : (e.stage, e.factor.units) = c.noteCourse k) :
    (e'.stage, e'.factor.units) = c.noteCourse (k + 1) := by
  by_cases hattack : k < c.attackTicks
  · rw [Envelope.noteCourse_of_attack hattack, Prod.mk.injEq] at hplace
    exact htick.noteCourse_of_attack hc hramps hattack hplace.1 hplace.2
  · obtain ⟨j, rfl⟩ := Nat.exists_eq_add_of_le (Nat.not_lt.1 hattack)
    by_cases hdecay : j < c.decayTicks
    · rw [Envelope.noteCourse_of_decay hdecay, Prod.mk.injEq] at hplace
      exact htick.noteCourse_of_decay hc hramps hdecay hplace.1 hplace.2
    · -- the sustain level is a place that no tick leaves
      have hend : c.attackTicks + c.decayTicks ≤ c.attackTicks + j := by omega
      rw [noteCourse_of_sustain hend] at hplace
      have hmoves : e.stage.moves = false := by
        rw [(Prod.mk.inj hplace).1]
        rfl
      rw [htick.eq_of_rests hmoves, noteCourse_of_sustain (by omega), hplace]

/-- A tick leads from each place after a note to the next. -/
theorem Tick.releaseCourse_succ (htick : Tick e e') (hc : c.Coherent)
    (hramps : e.ramps = c.ramps) (hplace : (e.stage, e.factor.units) = c.releaseCourse k) :
    (e'.stage, e'.factor.units) = c.releaseCourse (k + 1) := by
  have hrelease : e.releaseStep = c.releaseStep := congrArg (fun r => r.2.2.2) hramps
  have hnext : (k + 1) * c.releaseStep.units = k * c.releaseStep.units + c.releaseStep.units :=
    Nat.succ_mul _ _
  have hceil : k + 1 < c.factor.units ⌈/⌉ c.releaseStep.units ↔
      k * c.releaseStep.units + c.releaseStep.units < c.factor.units := by
    rw [lt_ceilDiv hc.steps_pos.2.2, hnext]
  by_cases hk : k < c.releaseTicks
  · rw [releaseCourse, if_pos hk, Prod.mk.injEq] at hplace
    obtain ⟨hstage, hfactor⟩ := hplace
    cases htick with
    | fade _ hsum hpos =>
      rw [hrelease, hfactor] at hsum
      have hmore : k + 1 < c.releaseTicks := by
        rw [releaseTicks]
        omega
      rw [releaseCourse, if_pos hmore, hnext]
      simp only [hstage, Prod.mk.injEq, true_and]
      omega
    | finish _ hle =>
      -- from a factor of zero this is the first tick, which `releaseTicks` counts as well
      rw [hrelease, hfactor] at hle
      have hend : ¬ k + 1 < c.releaseTicks := by
        rw [releaseTicks]
        omega
      rw [releaseCourse, if_neg hend]
      rfl
    | rest hrest => simp [hstage] at hrest
    | climb hother _ _ | sink hother _ _ => cases hstage.symm.trans hother
    | top hother _ | settle hother _ => cases hstage.symm.trans hother
  · rw [releaseCourse, if_neg hk] at hplace
    have hmoves : e.stage.moves = false := by
      rw [(Prod.mk.inj hplace).1]
      rfl
    rw [htick.eq_of_rests hmoves, releaseCourse, if_neg (by omega), hplace]

end Tick

/-! ## Any number of ticks -/

section Run

variable {c e : Envelope} {course : Nat → Stage × Nat}

/-- What every tick leads along is the course of every number of ticks. -/
theorem after_course
    (hstep : ∀ {x x' : Envelope} {k : Nat}, Tick x x' → x.ramps = c.ramps →
      (x.stage, x.factor.units) = course k → (x'.stage, x'.factor.units) = course (k + 1))
    (he : e.Coherent) (hramps : e.ramps = c.ramps)
    (hstart : (e.stage, e.factor.units) = course 0) (k : Nat) :
    ∃ x, e.after k = .ok x ∧ x.Coherent ∧ x.ramps = c.ramps ∧
      (x.stage, x.factor.units) = course k := by
  induction k with
  | zero => exact ⟨e, rfl, he, hramps, hstart⟩
  | succ k ih =>
    obtain ⟨x, hafter, hx, hsame, hplace⟩ := ih
    -- a coherent envelope is bounded, so its tick succeeds
    obtain ⟨x', hok, htick⟩ := hx.bounded.tick
    refine ⟨x', ?_, hx.step hok, htick.ramps_eq.trans hsame, hstep htick hsame hplace⟩
    simp only [after, hafter]
    exact hok

theorem after_trigger (hc : c.Coherent) (k : Nat) :
    ∃ x, c.trigger.after k = .ok x ∧ (x.stage, x.factor.units) = c.noteCourse k := by
  have hstart : (c.trigger.stage, c.trigger.factor.units) = c.noteCourse 0 := by
    rw [noteCourse_of_attack hc.attackTicks_bounds.1, Nat.zero_mul]
    rfl
  obtain ⟨x, hafter, -, -, hplace⟩ := after_course (c := c)
    (fun htick hramps hplace => htick.noteCourse_succ hc hramps hplace) hc.trigger rfl hstart k
  exact ⟨x, hafter, hplace⟩

theorem after_release (hc : c.Coherent) (k : Nat) :
    ∃ x, c.release.after k = .ok x ∧ (x.stage, x.factor.units) = c.releaseCourse k := by
  have hstart : (c.release.stage, c.release.factor.units) = c.releaseCourse 0 := by
    have hpos : 0 < c.releaseTicks := hc.releaseTicks_bounds.1
    rw [releaseCourse, if_pos hpos, Nat.zero_mul]
    rfl
  obtain ⟨x, hafter, -, -, hplace⟩ := after_course (c := c)
    (fun htick hramps hplace => htick.releaseCourse_succ hc hramps hplace) hc.release rfl hstart k
  exact ⟨x, hafter, hplace⟩

end Run

/-! ## Envelopes that arise -/

/-- The envelopes that arise from a fresh one. The two flags are open to the caller. -/
inductive Built : Envelope → Prop
  | fresh : Built fresh
  | configure {e e' : Envelope} (params : EnvelopeParams) :
      Built e → e.configure params = .ok e' → Built e'
  | trigger {e : Envelope} : Built e → Built e.trigger
  | release {e : Envelope} : Built e → Built e.release
  | step {e e' : Envelope} : Built e → e.step = .ok e' → Built e'
  | takePending {e : Envelope} : Built e → Built e.takePending.2
  | setFlags {e : Envelope} (enabled pending : Bool) : Built e → Built { e with enabled, pending }

theorem Built.coherent {e : Envelope} (h : e.Built) : e.Coherent := by
  induction h with
  | fresh => exact coherent_fresh
  | configure params _ hok ih =>
    rw [configure_eq] at hok
    cases hok
    exact ih.withParams params
  | trigger _ ih => exact ih.trigger
  | release _ ih => exact ih.release
  | step _ hok ih => exact ih.step hok
  | @takePending e _ ih =>
    simp only [Envelope.takePending]
    split
    · exact ih.takePending
    · exact ih
  | setFlags enabled pending _ ih => exact ih.moved ih.bounded.factor_le ih.off

/-- For every envelope that arises. Configured with any parameters, which are cut at 127, and
triggered, it climbs in steps to one, sinks in steps to the sustain level and stays there;
released instead, it fades in steps from its factor to zero and is off. No stage takes more
than one tick more than its parameter. No tick faults, and a tick marks the factor exactly in
the attack, the decay and the release. -/
theorem envelope_follows_course {e : Envelope} (he : e.Built) (params : EnvelopeParams) :
    let a := min params.attack.toNat 127
    let d := min params.decay.toNat 127
    (∃ c, e.configure params = .ok c ∧
      c.attackStep.units = stepUnits a 65536 ∧ c.decayStep.units = stepUnits d 65536 ∧
      c.sustainFactor.units = 65536 / 127 * min params.sustain.toNat 127 ∧
      c.releaseStep.units = stepUnits (min params.release.toNat 127) 131072 ∧
      (1 ≤ c.attackTicks ∧ c.attackTicks ≤ a + 1) ∧
      (1 ≤ c.decayTicks ∧ c.decayTicks ≤ d + 1) ∧
      ∀ k, ∃ x, c.trigger.after k = .ok x ∧ (x.stage, x.factor.units) = c.noteCourse k) ∧
    e.releaseStep.units = stepUnits e.params.release.toNat 131072 ∧
    e.releaseTicks ≤ e.params.release.toNat + 1 ∧
    (∀ k, ∃ x, e.release.after k = .ok x ∧ (x.stage, x.factor.units) = e.releaseCourse k) ∧
    ∃ x, e.step = .ok x ∧ x.pending = (e.pending || e.stage.moves) := by
  intro a d
  have hcoherent := he.coherent
  have hc := hcoherent.withParams params
  have hsteps := hc.units_steps
  have hattack := hc.attackTicks_bounds
  have hdecay := hc.decayTicks_bounds
  have hsustain := hc.sustain_eq
  -- the parameters of the new envelope are those given, cut at the limit
  have hparams : (e.withParams params).params = params.clamped := rfl
  simp only [hparams, EnvelopeParams.clamped, toNat_min_limit] at hsteps hattack hdecay hsustain
  refine ⟨⟨e.withParams params, configure_eq e params, hsteps.1, hsteps.2.1, hsustain,
    hsteps.2.2, hattack, hdecay, after_trigger hc⟩, hcoherent.units_steps.2.2,
    hcoherent.releaseTicks_bounds.2, after_release hcoherent, ?_⟩
  obtain ⟨x, hok, htick⟩ := hcoherent.bounded.tick
  exact ⟨x, hok, htick.pending_eq⟩

/-- An envelope one tick into a note of another kind. Three ticks of a third each, cut off,
do not make up one. -/
theorem envelope_follows_course_for_thirds :
    let e : Envelope := { (fresh.withParams ⟨4, 0, 127, 9⟩).trigger with factor := ⟨16384⟩ }
    e.Built ∧
      (∃ c, e.configure ⟨3, 200, 64, 7⟩ = .ok c ∧ c.attackTicks = 4 ∧ c.decayTicks = 64 ∧
        (∃ x, c.trigger.after 3 = .ok x ∧ (x.stage, x.factor.units) = (.attack, 65535)) ∧
        (∃ x, c.trigger.after 5 = .ok x ∧ (x.stage, x.factor.units) = (.decay, 65020)) ∧
        (∃ x, c.trigger.after 1000 = .ok x ∧ (x.stage, x.factor.units) = (.sustain, 33024))) ∧
      (∃ x, e.release.after 2 = .ok x ∧ (x.stage, x.factor.units) = (.release, 1822)) ∧
      ∃ x, e.release.after 3 = .ok x ∧ (x.stage, x.factor.units) = (.off, 0) := by
  intro e
  have he : e.Built := .step (.trigger (.configure ⟨4, 0, 127, 9⟩ .fresh (configure_eq _ _))) rfl
  obtain ⟨⟨c, hc, ha, hd, hs, -, -, -, hnote⟩, -, -, hrelease, -⟩ :=
    envelope_follows_course he ⟨3, 200, 64, 7⟩
  have hattack : c.attackTicks = 4 := by
    rw [attackTicks, ha]
    rfl
  have hdecay : c.decayTicks = 64 := by
    rw [decayTicks, hd, hs]
    rfl
  have hcourse : c.noteCourse 3 = (.attack, 65535) ∧ c.noteCourse 5 = (.decay, 65020) ∧
      c.noteCourse 1000 = (.sustain, 33024) := by
    simp only [noteCourse, hattack, hdecay, ha, hd, hs]
    decide +kernel
  have hfade : e.releaseCourse 2 = (.release, 1822) ∧ e.releaseCourse 3 = (.off, 0) := by
    decide +kernel
  refine ⟨he, ⟨c, hc, hattack, hdecay, ?_, ?_, ?_⟩, ?_, ?_⟩
  · rw [← hcourse.1]
    exact hnote 3
  · rw [← hcourse.2.1]
    exact hnote 5
  · rw [← hcourse.2.2]
    exact hnote 1000
  · rw [← hfade.1]
    exact hrelease 2
  · rw [← hfade.2]
    exact hrelease 3

end Envelope

end Chiptune
