import Chiptune.Proofs.Coherence
import Chiptune.Proofs.Restart

/-!
# Retriggered voices

The start of a note writes the whole state of a voice with a pitch, except for its duty, the
parameters and flags of its vibrato and its envelope, and, if the vibrato is disabled, the
place at which it stopped. Nothing reads that place before the vibrato is configured again.
`Part.audible` takes it out, with the flag of the triangle, which nothing reads at all.

Whatever is done to a part and to its audible part has the same fault or the same sample, and
what is audible is the same afterwards (`agree_stroke`). So what a part shows over a whole
course depends on its audible part only (`watch_audible`). Two parts with the same settings
have the same audible part once a note has started (`SetAlike.noteOn`); for the envelope this
holds because its steps are those of its parameters (`Square.Reachable.coherent`).
-/

set_option autoImplicit false

namespace Chiptune

/-! ## What shows of a voice -/

namespace Vibrato

/-- A disabled vibrato that was never configured, but for its parameters. -/
def resting (params : VibratoParams) : Vibrato := { fresh with params }

@[simp]
theorem enabled_resting (params : VibratoParams) : (resting params).enabled = false := rfl

@[simp]
theorem params_resting (params : VibratoParams) : (resting params).params = params := rfl

/-- The vibrato without the place at which it was disabled. -/
def audible (v : Vibrato) : Vibrato := if v.enabled then v else resting v.params

theorem audible_of_enabled {v : Vibrato} (h : v.enabled = true) : v.audible = v :=
  if_pos h

theorem audible_of_disabled {v : Vibrato} (h : v.enabled = false) :
    v.audible = resting v.params := by
  simp [audible, h]

@[simp]
theorem audible_audible (v : Vibrato) : v.audible.audible = v.audible := by
  cases h : v.enabled with
  | true => rw [audible_of_enabled h, audible_of_enabled h]
  | false => rw [audible_of_disabled h, audible_of_disabled rfl, params_resting]

/-- A note starts an enabled vibrato over and leaves a disabled one as it is. -/
theorem audible_started {v v' : Vibrato} (henabled : v.enabled = v'.enabled)
    (hparams : v.params = v'.params) (base : Fixed) :
    (if v.enabled then around v.params base else v).audible =
      (if v'.enabled then around v'.params base else v').audible := by
  cases h : v'.enabled with
  | true => simp [henabled, h, hparams]
  | false => simp [henabled, h, audible_of_disabled, hparams]

end Vibrato

namespace Square

/-- The square without the place at which its vibrato was disabled. -/
def audible (q : Square) : Square := { q with vibrato := q.vibrato.audible }

theorem audible_of_enabled {q : Square} (h : q.vibrato.enabled = true) : q.audible = q := by
  rw [audible, Vibrato.audible_of_enabled h]

@[simp]
theorem audible_audible (q : Square) : q.audible.audible = q.audible := by
  simp [audible]

/-- Nothing audible sets the squares apart. -/
def Alike (q q' : Square) : Prop := q.audible = q'.audible

theorem alike_performed (q : Square) (t : Tuning) (action : Action) :
    Alike (q.audible.performed t action) (q.performed t action) := by
  cases h : q.vibrato.enabled with
  | true => rw [audible_of_enabled h]; rfl
  | false =>
    -- the parameters are all that an action takes from a disabled vibrato
    have hvibrato := Vibrato.audible_of_disabled h
    cases action with
    | noteOn note velocity =>
      have hresting := Vibrato.audible_of_disabled (Vibrato.enabled_resting q.vibrato.params)
      simp [Alike, performed, audible, h, hvibrato, hresting]
    | vibratoOn => simp [Alike, performed, audible, hvibrato]
    | vibratoOff => simp [Alike, performed, audible, hvibrato, Vibrato.audible_of_disabled]
    | noteOff => simp [Alike, performed, noteOff, audible]
    | configureVibrato params => rfl
    | setDuty duty => simp [Alike, performed, audible]
    | configureEnvelope params => simp [Alike, performed, audible]
    | envelopeOn => simp [Alike, performed, audible]
    | envelopeOff => simp [Alike, performed, audible]

theorem agree_modulateEnvelope (q : Square) :
    Agree Alike q.audible.modulateEnvelope q.modulateEnvelope := by
  show Agree Alike (q.amplitude.modulate >>= _) (q.amplitude.modulate >>= _)
  cases q.amplitude.modulate with
  | error f => exact .fault f
  | ok amplitude => exact .result (audible_audible { q with amplitude })

theorem next_withVibrato (q : Square) (vibrato : Vibrato) :
    next { q with vibrato } = q.next.map fun r => (r.1, { r.2 with vibrato }) := by
  simp only [next]
  split
  · rfl
  · cases q.phase.advance with
    | error f => rfl
    | ok phase =>
      simp only [bind, Except.bind]
      split
      · rfl
      · split
        · rfl
        · cases phase.wrap with
          | error f => rfl
          | ok wrapped => rfl

theorem agree_next (q : Square) : Agree (SameBeside Alike) q.audible.next q.next := by
  rw [audible, next_withVibrato]
  cases hnext : q.next with
  | error f => exact .fault f
  | ok r =>
    -- a sample leaves the vibrato alone
    rw [← (next_frame hnext).2.1]
    exact .result ⟨rfl, audible_audible r.2⟩

end Square

namespace Triangle

/-- The triangle without its vibrato flag. -/
def audible (r : Triangle) : Triangle := { r with vibratoFlag := false }

/-- Nothing audible sets the triangles apart. -/
def Alike (r r' : Triangle) : Prop := r.audible = r'.audible

theorem alike_performed (r : Triangle) (t : Tuning) (action : Action) :
    Alike (r.audible.performed t action) (r.performed t action) := by
  cases action <;> rfl

theorem next_withFlag (r : Triangle) (vibratoFlag : Bool) :
    next { r with vibratoFlag } = r.next.map fun x => (x.1, { x.2 with vibratoFlag }) := by
  simp only [next]
  split
  · rfl
  · cases r.phase.advance with
    | error f => rfl
    | ok phase =>
      simp only [bind, Except.bind]
      split
      · rfl
      · split
        · rfl
        · cases phase.wrap with
          | error f => rfl
          | ok wrapped => rfl

theorem agree_next (r : Triangle) : Agree (SameBeside Alike) r.audible.next r.next := by
  rw [audible, next_withFlag]
  cases r.next with
  | error f => exact .fault f
  | ok x => exact .result ⟨rfl, rfl⟩

end Triangle

/-! ## Courses -/

/-- What is done to a part: an action with the periods of a tuning, a modulation tick, or a
sample. -/
inductive Stroke where
  | act (t : Tuning) (action : Action)
  | modulate
  | sample

namespace Part

variable {ρ : Type}

/-- Carries out an action. -/
def perform (t : Tuning) : Part ρ → Action → Except Fault (Part ρ)
  | square q, action => return square (← q.perform t action)
  | triangle r, action => return triangle (← r.perform t action)
  | noise n source, action => return noise (← n.perform action) source

theorem perform_eq (p : Part ρ) (t : Tuning) (action : Action) :
    p.perform t action = .ok (p.performed t action) := by
  cases p with
  | square q => simp only [perform, Square.perform_eq]; rfl
  | triangle r => simp only [perform, Triangle.perform_eq]; rfl
  | noise n source => simp only [perform, Noise.perform_eq]; rfl

/-- The part without what no sample depends on. The phase and the levels all show. -/
def audible : Part ρ → Part ρ
  | square q => square q.audible
  | triangle r => triangle r.audible
  | noise n source => noise n source

section Courses

variable [BitSource ρ]

/-- The sample, if there is one, and the part after a stroke. -/
def stroke (p : Part ρ) : Stroke → Except Fault (Option Int16 × Part ρ)
  | .act t action => return (none, ← p.perform t action)
  | .modulate => return (none, ← p.modulate)
  | .sample => do
      let (x, p) ← p.next
      return (some x, p)

/-- What shows over a course: each sample, and the audible part after each stroke. A fault
ends it. -/
def watch : List Stroke → Part ρ → List (Except Fault (Option Int16 × Part ρ))
  | [], _ => []
  | s :: strokes, p =>
      match p.stroke s with
      | .error f => [.error f]
      | .ok (x, p') => .ok (x, p'.audible) :: watch strokes p'

end Courses

/-! ## What a course depends on -/

/-- Nothing audible sets the parts apart. -/
def Alike (p p' : Part ρ) : Prop := p.audible = p'.audible

theorem Alike.refl (p : Part ρ) : p.Alike p := rfl

theorem alike_performed (p : Part ρ) (t : Tuning) (action : Action) :
    Alike (p.audible.performed t action) (p.performed t action) := by
  cases p with
  | square q => exact congrArg square (q.alike_performed t action)
  | triangle r => exact congrArg triangle (r.alike_performed t action)
  | noise n source => rfl

theorem agree_modulate (p : Part ρ) : Agree Alike p.audible.modulate p.modulate := by
  cases p with
  | square q =>
    cases h : q.vibrato.enabled with
    | true =>
      rw [audible, Square.audible_of_enabled h]
      exact Agree.refl Alike.refl _
    | false =>
      -- a disabled vibrato does not tick
      have hstill : q.modulateVibrato = .ok q := by simp [Square.modulateVibrato, h]
      have hstill' : q.audible.modulateVibrato = .ok q.audible := by
        simp [Square.modulateVibrato, Square.audible, Vibrato.audible_of_disabled h]
      simp only [audible, modulate, hstill, hstill']
      apply q.agree_modulateEnvelope.bind
      intro a b hab
      exact .result (congrArg square hab)
  | triangle r => exact .result rfl
  | noise n source => exact Agree.refl Alike.refl _

section Courses

variable [BitSource ρ]

theorem agree_next (p : Part ρ) : Agree (SameBeside Alike) p.audible.next p.next := by
  cases p with
  | square q =>
    apply q.agree_next.bind
    intro a b hab
    exact .result ⟨hab.1, congrArg square hab.2⟩
  | triangle r =>
    apply r.agree_next.bind
    intro a b hab
    exact .result ⟨hab.1, congrArg triangle hab.2⟩
  | noise n source => exact Agree.refl (fun r => ⟨rfl, Alike.refl r.2⟩) _

/-- A stroke on the audible part and on the part itself: the same fault, or the same sample
and parts that are alike. -/
theorem agree_stroke (p : Part ρ) (s : Stroke) :
    Agree (SameBeside Alike) (p.audible.stroke s) (p.stroke s) := by
  cases s with
  | act t action =>
    simp only [stroke, perform_eq]
    exact .result ⟨rfl, p.alike_performed t action⟩
  | modulate => exact p.agree_modulate.bind fun _ _ h => .result ⟨rfl, h⟩
  | sample => exact p.agree_next.bind fun _ _ h => .result ⟨congrArg some h.1, h.2⟩

/-- What shows depends on the audible part only. -/
theorem watch_audible (strokes : List Stroke) (p : Part ρ) :
    watch strokes p.audible = watch strokes p := by
  induction strokes generalizing p with
  | nil => rfl
  | cons s strokes ih =>
    have hstroke := p.agree_stroke s
    simp only [watch]
    generalize p.audible.stroke s = y at hstroke ⊢
    generalize p.stroke s = z at hstroke ⊢
    cases hstroke with
    | fault f => rfl
    | @result a b hab =>
      obtain ⟨x, u⟩ := a
      obtain ⟨x', u'⟩ := b
      obtain ⟨rfl, hu⟩ := hab
      -- both courses go on as from their common audible part
      have hrest : watch strokes u = watch strokes u' := by rw [← ih u, ← ih u', hu]
      simp only [hrest, show u.audible = u'.audible from hu]

theorem Alike.watch_eq {p p' : Part ρ} (h : p.Alike p') (strokes : List Stroke) :
    watch strokes p = watch strokes p' := by
  rw [← watch_audible strokes p, ← watch_audible strokes p', h]

end Courses

end Part

/-! ## The start of a note -/

/-- The squares that arise from fresh ones by actions, samples, and ticks of the vibrato and
of the envelope, which need not be enabled then. -/
inductive Square.Reachable : Square → Prop
  | fresh (duty : UInt8) : Reachable (fresh duty)
  | perform {q q' : Square} {t : Tuning} {action : Action} :
      Reachable q → q.perform t action = .ok q' → Reachable q'
  | next {q q' : Square} {x : Int16} : Reachable q → q.next = .ok (x, q') → Reachable q'
  | stepVibrato {q q' : Square} : Reachable q → q.stepVibrato = .ok q' → Reachable q'
  | stepEnvelope {q : Square} {envelope : Envelope} :
      Reachable q → q.amplitude.envelope.step = .ok envelope →
        Reachable { q with amplitude := { q.amplitude with envelope } }

theorem Square.Reachable.performed {q : Square} (h : q.Reachable) (t : Tuning) (action : Action) :
    (q.performed t action).Reachable :=
  h.perform (perform_eq q t action)

theorem Square.Reachable.coherent {q : Square} (h : q.Reachable) : q.amplitude.Coherent := by
  induction h with
  | fresh duty => exact Amplitude.coherent_silent
  | @perform q q' t action _ hok ih =>
    rw [perform_eq] at hok
    cases hok
    rw [amplitude_performed]
    exact ih.performed action
  | next _ hok ih => exact coherent_amplitude_next ih hok
  | stepVibrato _ hok ih =>
    rw [amplitude_stepVibrato hok]
    exact ih
  | stepEnvelope _ hok ih => exact ih.withEnvelope (ih.envelope.step hok)

/-- A triggered envelope is known from its parameters. -/
theorem Envelope.Coherent.trigger_eq {e e' : Envelope} (h : e.Coherent) (h' : e'.Coherent)
    (henabled : e.enabled = e'.enabled) (hparams : e.params = e'.params) :
    e.trigger = e'.trigger := by
  have hattack := h.attack_eq
  have hdecay := h.decay_eq
  have hsustain := h.sustain_eq
  have hrelease := h.release_eq
  rw [hparams] at hattack hdecay hsustain hrelease
  have hattack' : e.attackStep = e'.attackStep := Except.ok.inj (hattack.symm.trans h'.attack_eq)
  have hdecay' : e.decayStep = e'.decayStep := Except.ok.inj (hdecay.symm.trans h'.decay_eq)
  have hsustain' : e.sustainFactor = e'.sustainFactor :=
    Fixed.units_inj.1 (hsustain.trans h'.sustain_eq.symm)
  have hrelease' : e.releaseStep = e'.releaseStep :=
    Except.ok.inj (hrelease.symm.trans h'.release_eq)
  simp only [Envelope.trigger, henabled, hparams, hattack', hdecay', hsustain', hrelease']

namespace Part

variable {ρ : Type}

/-- Two triangles with the same duty, or two squares that arise and have the same settings,
with both envelopes enabled. -/
inductive SetAlike : Part ρ → Part ρ → Prop
  | triangle {r r' : Triangle} :
      r.phase.duty = r'.phase.duty → SetAlike (triangle r) (triangle r')
  | square {q q' : Square} :
      q.Reachable → q'.Reachable → q.phase.duty = q'.phase.duty →
      q.vibrato.enabled = q'.vibrato.enabled → q.vibrato.params = q'.vibrato.params →
      q.amplitude.envelope.params = q'.amplitude.envelope.params →
      q.amplitude.envelope.enabled = true → q'.amplitude.envelope.enabled = true →
        SetAlike (square q) (square q')

theorem SetAlike.noteOn {p p' : Part ρ} (h : p.SetAlike p') (t : Tuning) (note velocity : UInt8) :
    Alike (p.performed t (.noteOn note velocity)) (p'.performed t (.noteOn note velocity)) := by
  cases h with
  | @triangle r r' hduty =>
    -- all fields but the duty and the flag are written
    simp only [Alike, audible, performed, Triangle.performed, hduty]
    rfl
  | @square q q' hq hq' hduty henabled hparams henvelope hon hon' =>
    -- the factor and the stage begin anew, and the steps are those of the common parameters
    have htrigger := hq.coherent.envelope.trigger_eq hq'.coherent.envelope (hon.trans hon'.symm)
      henvelope
    have hbegun : q.amplitude.begun velocity = q'.amplitude.begun velocity := by
      simp [Amplitude.begun, hon, hon', htrigger]
    have hvibrato := Vibrato.audible_started henabled hparams (t.period note)
    simp only [Alike, audible, performed, Square.performed, Square.audible, hduty, hbegun, hvibrato]

/-- A note-on forgets the past. Two triangles with the same duty, or two squares that arise
and have the same duty, the same vibrato flag and parameters and the same envelope parameters,
with both envelopes enabled: after the start of the same note nothing audible sets them apart,
and over every course they give the same samples, show the same periods, edges, levels and
all else that is audible after each stroke, and end in the same fault if they end in one. -/
theorem retrigger_forgets_past [BitSource ρ] {p p' : Part ρ} (h : p.SetAlike p') (t : Tuning)
    (note velocity : UInt8) :
    ∃ r r', p.perform t (.noteOn note velocity) = .ok r ∧
      p'.perform t (.noteOn note velocity) = .ok r' ∧ r.audible = r'.audible ∧
      ∀ strokes, watch strokes r = watch strokes r' := by
  have halike := h.noteOn t note velocity
  refine ⟨_, _, perform_eq p t _, perform_eq p' t _, halike, ?_⟩
  intro strokes
  exact halike.watch_eq strokes

/-- One square played a note with a vibrato that was then disabled, and is in its release; the
other never played. The vibratos keep different places, which do not show. -/
theorem retrigger_forgets_past_of_vibrato :
    let t : Tuning := ⟨48000, Vector.replicate 128 ⟨131072⟩⟩
    let t' : Tuning := ⟨44100, Vector.replicate 128 ⟨6553600⟩⟩
    let q := (((Square.fresh 128).performed t (.configureVibrato ⟨126, 50⟩)).performed t
      .vibratoOff).performed t .envelopeOn
    let q' := (((q.performed t' .vibratoOn).performed t' (.noteOn 60 100)).performed t'
      .vibratoOff).performed t' .noteOff
    SetAlike (square q : Part Lfsr) (square q') ∧
      (q.performed t (.noteOn 72 90)).vibrato ≠ (q'.performed t (.noteOn 72 90)).vibrato ∧
      ∃ r r' : Part Lfsr, (square q).perform t (.noteOn 72 90) = .ok r ∧
        (square q').perform t (.noteOn 72 90) = .ok r' ∧ r.audible = r'.audible ∧
        ∀ strokes, watch strokes r = watch strokes r' := by
  intro t t' q q'
  have hq : q.Reachable := (((Square.Reachable.fresh 128).performed t _).performed t _).performed t _
  have hq' : q'.Reachable :=
    (((hq.performed t' _).performed t' _).performed t' _).performed t' _
  have halike : SetAlike (square q : Part Lfsr) (square q') :=
    .square hq hq' (by decide +kernel) (by decide +kernel) (by decide +kernel)
      (by decide +kernel) (by decide +kernel) (by decide +kernel)
  exact ⟨halike, by decide +kernel, retrigger_forgets_past halike t 72 90⟩

end Part

end Chiptune
