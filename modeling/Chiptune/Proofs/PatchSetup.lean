import Chiptune.Patch
import Chiptune.Proofs.Levels
import Mathlib.Data.List.Induction

/-!
# The setup of a patch

A patch may set up a channel several times, and each setup gives some of the duty, the envelope and
the vibrato. The commands of a setup are actions for its channel (`ChannelSetup.commands_eq`), and a
voice sees only the setups of its own channel (`Sees.setups`). Configuring a vibrato enables it, and
enabling an envelope is a command of its own, so a field takes up to two actions; what they leave
behind is the field of this setup and nothing of the earlier ones (`Square.Arranged.setUp`,
`Triangle.Arranged.setUp`, `Noise.Arranged.setUp`).

Over all setups each field is therefore the last one that its channel was given, and without one it
stays as it was (`last_setup_wins`).
-/

set_option autoImplicit false

namespace Chiptune

/-! ## Setups as actions -/

/-- The last of some setups that gives a field gives it. -/
def lastOf {α : Type} (field : ChannelSetup → Option α) (setups : List ChannelSetup) : Option α :=
  (setups.filterMap field).getLast?

theorem lastOf_concat {α : Type} (field : ChannelSetup → Option α) (setups : List ChannelSetup)
    (s : ChannelSetup) : lastOf field (setups ++ [s]) = (field s).or (lastOf field setups) := by
  cases hs : field s with
  | none => simp [lastOf, hs]
  | some x => simp [lastOf, hs]

namespace ChannelSetup

def dutyActions : Option UInt8 → List Action
  | none => []
  | some duty => [.setDuty duty]

def envelopeActions : Option EnvelopeSetup → List Action
  | none => []
  | some e => [.configureEnvelope e.params, if e.enabled then .envelopeOn else .envelopeOff]

def vibratoActions : Option VibratoSetup → List Action
  | none => []
  | some v => .configureVibrato v.params :: if v.enabled then [] else [.vibratoOff]

/-- What a setup tells its channel to do, in order. -/
def actions (s : ChannelSetup) : List Action :=
  dutyActions s.duty ++ envelopeActions s.envelope ++ vibratoActions s.vibrato

theorem commands_eq (s : ChannelSetup) :
    s.commands = s.actions.map (Command.address s.channel) := by
  obtain ⟨channel, duty, envelope, vibrato⟩ := s
  simp only [commands, actions, List.map_append]
  congr 1
  · congr 1
    · cases duty <;> rfl
    · cases envelope <;> rfl
  · cases vibrato with
    | none => rfl
    | some v => cases hv : v.enabled <;> simp [vibratoActions, hv]

/-- The setup without what its channel does not have. A number without a channel has nothing. -/
def supported (s : ChannelSetup) : ChannelSetup :=
  match Channel.ofNumber s.channel with
  | .ok c =>
      { s with
        duty := if c.hasDuty then s.duty else none
        envelope := if c.hasEnvelope then s.envelope else none
        vibrato := if c.hasVibrato then s.vibrato else none }
  | .error _ => { s with duty := none, envelope := none, vibrato := none }

theorem channel_supported (s : ChannelSetup) : s.supported.channel = s.channel := by
  simp only [supported]
  split <;> rfl

theorem supported_of_channel {s : ChannelSetup} {c : Channel} (hs : s.channel = c.number) :
    s.supported = ⟨s.channel, if c.hasDuty then s.duty else none,
      if c.hasEnvelope then s.envelope else none, if c.hasVibrato then s.vibrato else none⟩ := by
  simp only [supported, hs, Channel.ofNumber_number]

end ChannelSetup

/-- The setups of a channel. -/
def setupsOf (c : Channel) (setups : List ChannelSetup) : List ChannelSetup :=
  setups.filter fun s => s.channel = c.number

theorem setupsOf_supported (c : Channel) (setups : List ChannelSetup) :
    setupsOf c (setups.map ChannelSetup.supported) =
      (setupsOf c setups).map ChannelSetup.supported := by
  simp only [setupsOf, List.filter_map, Function.comp_def, ChannelSetup.channel_supported]

/-- Where a setup does no more than what is supported of it, so do all setups of the channel. -/
theorem foldl_supported {σ : Type} {f : σ → ChannelSetup → σ} {P : σ → Prop} {c : Channel}
    (hkeep : ∀ x s, P x → P (f x s))
    (hsame : ∀ x s, P x → s.channel = c.number → f x s.supported = f x s)
    (setups : List ChannelSetup) {x : σ} (hx : P x) :
    (setupsOf c (setups.map ChannelSetup.supported)).foldl f x =
      (setupsOf c setups).foldl f x := by
  rw [setupsOf_supported]
  have hall : ∀ s ∈ setupsOf c setups, s.channel = c.number := by
    intro s hs
    simpa using (List.mem_filter.1 hs).2
  generalize setupsOf c setups = own at hall
  induction own generalizing x with
  | nil => rfl
  | cons s own ih =>
    have hs := hall s List.mem_cons_self
    simp only [List.map_cons, List.foldl_cons, hsame x s hx hs]
    exact ih (hkeep x s hx) fun s' hs' => hall s' (List.mem_cons_of_mem _ hs')

/-- What holds at first and is kept with one more setup holds after all of them. -/
theorem foldl_setups_keep {σ : Type} {f : σ → ChannelSetup → σ}
    {P : List ChannelSetup → σ → Prop} {start : σ} (hstart : P [] start)
    (hstep : ∀ setups s x, P setups x → P (setups ++ [s]) (f x s)) (setups : List ChannelSetup) :
    P setups (setups.foldl f start) := by
  induction setups using List.reverseRecOn with
  | nil => exact hstart
  | append_singleton setups s ih =>
    rw [List.foldl_append]
    exact hstep setups s _ ih

/-! ## What a voice sees of a setup -/

namespace Synth

variable {ρ σ : Type}

/-- A view of a synthesizer that changes with the actions for one channel and with nothing else. -/
def Sees (t : Tuning) (c : Channel) (view : Synth ρ → σ) (step : σ → Action → σ) : Prop :=
  ∀ (s : Synth ρ) (command : Command), s.tuning = t →
    view (s.applied command) = ((command.actionFor c).map (step (view s))).getD (view s)

theorem sees_square (t : Tuning) (side : Side) :
    Sees t side.channel (fun s : Synth ρ => s.square side)
      fun q action => q.performed t action := by
  rintro s command rfl
  exact applied_square s command side

theorem sees_triangle (t : Tuning) :
    Sees t .triangle (fun s : Synth ρ => s.triangle) fun r action => r.performed t action := by
  rintro s command rfl
  rfl

theorem sees_noise (t : Tuning) :
    Sees t .noise (fun s : Synth ρ => s.noise) fun n action => n.performed action := by
  rintro s command rfl
  rfl

/-- Commands reach the voices only. -/
theorem rest_appliedAll (commands : List Command) (s : Synth ρ) :
    (s.appliedAll commands).tuning = s.tuning ∧ (s.appliedAll commands).source = s.source ∧
      (s.appliedAll commands).ring = s.ring := by
  induction commands generalizing s with
  | nil => exact ⟨rfl, rfl, rfl⟩
  | cons command commands ih => exact ih (s.applied command)

section Sees

variable {t : Tuning} {c : Channel} {view : Synth ρ → σ} {step : σ → Action → σ}

theorem Sees.actions (h : Sees t c view step) (number : UInt8) (actions : List Action)
    {s : Synth ρ} (ht : s.tuning = t) :
    view (s.appliedAll (actions.map (Command.address number))) =
      if number = c.number then actions.foldl step (view s) else view s := by
  induction actions generalizing s with
  | nil => split <;> rfl
  | cons action actions ih =>
    have hfirst := h s (.address number action) ht
    have hrest := ih (s := s.applied (.address number action)) ht
    simp only [Command.actionFor] at hfirst
    by_cases hnumber : number = c.number
    · simp only [if_pos hnumber, Option.map_some, Option.getD_some] at hfirst hrest ⊢
      rw [hfirst] at hrest
      exact hrest
    · simp only [if_neg hnumber, Option.map_none, Option.getD_none] at hfirst hrest ⊢
      rw [hfirst] at hrest
      exact hrest

/-- A view sees the setups of its channel one after the other. -/
theorem Sees.setups (h : Sees t c view step) (setups : List ChannelSetup) {s : Synth ρ}
    (ht : s.tuning = t) :
    view (s.appliedAll (setups.flatMap ChannelSetup.commands)) =
      (setupsOf c setups).foldl (fun x setup => setup.actions.foldl step x) (view s) := by
  induction setups generalizing s with
  | nil => rfl
  | cons setup setups ih =>
    have hfirst := h.actions setup.channel setup.actions ht
    rw [← ChannelSetup.commands_eq] at hfirst
    have hrest := ih ((rest_appliedAll setup.commands s).1.trans ht)
    rw [hfirst] at hrest
    have hsplit : s.appliedAll ((setup :: setups).flatMap ChannelSetup.commands) =
        (s.appliedAll setup.commands).appliedAll (setups.flatMap ChannelSetup.commands) := by
      rw [List.flatMap_cons]
      exact List.foldl_append
    rw [hsplit, hrest]
    by_cases hchannel : setup.channel = c.number
    · simp [setupsOf, hchannel]
    · simp [setupsOf, hchannel]

end Sees

end Synth

/-! ## What a setup leaves behind -/

/-- The silent levels with the envelope of a setup. -/
def Amplitude.arranged : Option EnvelopeSetup → Amplitude
  | none => silent
  | some e => (silent.withParams e.params).setEnvelope e.enabled

/-- A vibrato around a base period that a setup has left enabled or disabled. -/
def Vibrato.arranged (base : Fixed) : Option VibratoSetup → Vibrato
  | none => fresh
  | some v => { around v.params base with enabled := v.enabled }

theorem Amplitude.arranged_again (e : EnvelopeSetup) (earlier : Option EnvelopeSetup) :
    ((arranged earlier).withParams e.params).setEnvelope e.enabled = arranged (some e) := by
  cases earlier <;> rfl

namespace Square

/-- The square after the actions of a setup. -/
def setUp (t : Tuning) (q : Square) (s : ChannelSetup) : Square :=
  s.actions.foldl (fun q action => q.performed t action) q

/-- A square that was set up and has not played. -/
structure Arranged (t : Tuning) (duty : UInt8) (envelope : Option EnvelopeSetup)
    (vibrato : Option VibratoSetup) (q : Square) : Prop where
  held : q.held = false
  note : q.note = 0
  duty : q.phase.duty = duty
  amplitude : q.amplitude = Amplitude.arranged envelope
  vibrato : q.vibrato = Vibrato.arranged (t.period 0) vibrato

variable {t : Tuning} {duty : UInt8} {envelope : Option EnvelopeSetup}
  {vibrato : Option VibratoSetup} {q : Square}

theorem Arranged.setDuty (h : q.Arranged t duty envelope vibrato) (given : Option UInt8) :
    ((ChannelSetup.dutyActions given).foldl (fun q action => q.performed t action) q).Arranged t
      (given.getD duty) envelope vibrato := by
  cases given with
  | none => exact h
  | some duty => exact ⟨h.held, h.note, rfl, h.amplitude, h.vibrato⟩

theorem performed_switch (t : Tuning) (q : Square) (on : Bool) :
    q.performed t (if on then .envelopeOn else .envelopeOff) =
      { q with amplitude := q.amplitude.setEnvelope on } := by
  cases on <;> rfl

theorem Arranged.setEnvelope (h : q.Arranged t duty envelope vibrato)
    (given : Option EnvelopeSetup) :
    ((ChannelSetup.envelopeActions given).foldl (fun q action => q.performed t action) q).Arranged t
      duty (given.or envelope) vibrato := by
  cases given with
  | none => exact h
  | some e =>
    have hagain := Amplitude.arranged_again e envelope
    rw [← h.amplitude] at hagain
    simp only [ChannelSetup.envelopeActions, List.foldl_cons, List.foldl_nil, performed_switch]
    exact ⟨h.held, h.note, h.duty, hagain, h.vibrato⟩

theorem Arranged.setVibrato (h : q.Arranged t duty envelope vibrato)
    (given : Option VibratoSetup) :
    ((ChannelSetup.vibratoActions given).foldl (fun q action => q.performed t action) q).Arranged t
      duty envelope (given.or vibrato) := by
  cases given with
  | none => exact h
  | some v =>
    -- the new vibrato is around the period of the note, which is still the first one
    have hnote := h.note
    cases hv : v.enabled with
    | true =>
      simp only [ChannelSetup.vibratoActions, hv, if_true]
      refine ⟨h.held, h.note, h.duty, h.amplitude, ?_⟩
      simp [performed, Vibrato.arranged, Vibrato.around, hnote, hv]
    | false =>
      simp only [ChannelSetup.vibratoActions, hv, Bool.false_eq_true, if_false]
      refine ⟨h.held, h.note, h.duty, h.amplitude, ?_⟩
      simp [performed, Vibrato.arranged, hnote, hv]

theorem Arranged.setUp (h : q.Arranged t duty envelope vibrato) (s : ChannelSetup) :
    (q.setUp t s).Arranged t (s.duty.getD duty) (s.envelope.or envelope)
      (s.vibrato.or vibrato) := by
  have hall := ((h.setDuty s.duty).setEnvelope s.envelope).setVibrato s.vibrato
  simp only [Square.setUp, ChannelSetup.actions, List.foldl_append]
  exact hall

theorem arranged_setups (t : Tuning) (duty : UInt8) (setups : List ChannelSetup) :
    (setups.foldl (Square.setUp t) (fresh duty)).Arranged t ((lastOf (·.duty) setups).getD duty)
      (lastOf (·.envelope) setups) (lastOf (·.vibrato) setups) := by
  refine foldl_setups_keep (P := fun setups q => Arranged t ((lastOf (·.duty) setups).getD duty)
    (lastOf (·.envelope) setups) (lastOf (·.vibrato) setups) q) ?_ ?_ setups
  · exact ⟨rfl, rfl, rfl, rfl, rfl⟩
  · intro setups s q h
    simp only [lastOf_concat, Option.getD_or]
    exact h.setUp s

theorem setUp_supported {side : Side} (q : Square) {s : ChannelSetup}
    (hs : s.channel = side.channel.number) : q.setUp t s.supported = q.setUp t s := by
  rw [ChannelSetup.supported_of_channel hs]
  cases side <;> rfl

end Square

namespace Triangle

/-- The triangle after the actions of a setup. -/
def setUp (t : Tuning) (r : Triangle) (s : ChannelSetup) : Triangle :=
  s.actions.foldl (fun r action => r.performed t action) r

/-- A triangle that was set up and has not played. -/
structure Arranged (duty : UInt8) (r : Triangle) : Prop where
  held : r.held = false
  flag : r.vibratoFlag = false
  duty : r.phase.duty = duty

variable {t : Tuning} {duty : UInt8} {r : Triangle}

/-- Of a setup the triangle takes the duty. A vibrato that is switched off finds the flag off. -/
theorem setUp_eq (hflag : r.vibratoFlag = false) (s : ChannelSetup) :
    r.setUp t s =
      (ChannelSetup.dutyActions s.duty).foldl (fun r action => r.performed t action) r := by
  have hvibrato : ∀ r' : Triangle, r'.vibratoFlag = false →
      (ChannelSetup.vibratoActions s.vibrato).foldl (fun r action => r.performed t action) r' =
        r' := by
    intro r' hoff
    cases s.vibrato with
    | none => rfl
    | some v =>
      cases hv : v.enabled with
      | true => simp [ChannelSetup.vibratoActions, hv, performed]
      | false =>
        simp only [ChannelSetup.vibratoActions, hv, Bool.false_eq_true, if_false]
        show { r' with vibratoFlag := false } = r'
        rw [← hoff]
  have henvelope : ∀ r' : Triangle,
      (ChannelSetup.envelopeActions s.envelope).foldl (fun r action => r.performed t action) r' =
        r' := by
    intro r'
    cases s.envelope with
    | none => rfl
    | some e => cases he : e.enabled <;> simp [ChannelSetup.envelopeActions, he, performed]
  simp only [setUp, ChannelSetup.actions, List.foldl_append, henvelope]
  apply hvibrato
  cases s.duty with
  | none => exact hflag
  | some duty => exact hflag

theorem Arranged.setUp (h : r.Arranged duty) (s : ChannelSetup) :
    (r.setUp t s).Arranged (s.duty.getD duty) := by
  rw [setUp_eq h.flag]
  cases s.duty with
  | none => exact h
  | some duty => exact ⟨h.held, h.flag, rfl⟩

theorem arranged_setups (t : Tuning) (duty : UInt8) (setups : List ChannelSetup) :
    (setups.foldl (Triangle.setUp t) (fresh duty)).Arranged
      ((lastOf (·.duty) setups).getD duty) := by
  refine foldl_setups_keep (P := fun setups r => Arranged ((lastOf (·.duty) setups).getD duty) r)
    ?_ ?_ setups
  · exact ⟨rfl, rfl, rfl⟩
  · intro setups s r h
    rw [lastOf_concat, Option.getD_or]
    exact h.setUp s

theorem setUp_supported (hflag : r.vibratoFlag = false) {s : ChannelSetup}
    (hs : s.channel = Channel.triangle.number) : r.setUp t s.supported = r.setUp t s := by
  rw [setUp_eq hflag, setUp_eq hflag, ChannelSetup.supported_of_channel hs]
  rfl

end Triangle

namespace Noise

/-- The noise after the actions of a setup. -/
def setUp (n : Noise) (s : ChannelSetup) : Noise :=
  s.actions.foldl (fun n action => n.performed action) n

/-- A noise that was set up and has not played. -/
structure Arranged (envelope : Option EnvelopeSetup) (n : Noise) : Prop where
  held : n.held = false
  amplitude : n.amplitude = Amplitude.arranged envelope

/-- Of a setup the noise takes the envelope. -/
theorem setUp_eq (n : Noise) (s : ChannelSetup) :
    n.setUp s =
      (ChannelSetup.envelopeActions s.envelope).foldl (fun n action => n.performed action) n := by
  have hduty : ∀ n' : Noise,
      (ChannelSetup.dutyActions s.duty).foldl (fun n action => n.performed action) n' = n' := by
    intro n'
    cases s.duty <;> rfl
  have hvibrato : ∀ n' : Noise,
      (ChannelSetup.vibratoActions s.vibrato).foldl (fun n action => n.performed action) n' =
        n' := by
    intro n'
    cases s.vibrato with
    | none => rfl
    | some v => cases hv : v.enabled <;> simp [ChannelSetup.vibratoActions, hv, performed]
  simp only [setUp, ChannelSetup.actions, List.foldl_append, hduty, hvibrato]

theorem performed_switch (n : Noise) (on : Bool) :
    n.performed (if on then .envelopeOn else .envelopeOff) =
      { n with amplitude := n.amplitude.setEnvelope on } := by
  cases on <;> rfl

theorem Arranged.setUp {envelope : Option EnvelopeSetup} {n : Noise} (h : n.Arranged envelope)
    (s : ChannelSetup) : (n.setUp s).Arranged (s.envelope.or envelope) := by
  rw [setUp_eq]
  cases s.envelope with
  | none => exact h
  | some e =>
    have hagain := Amplitude.arranged_again e envelope
    rw [← h.amplitude] at hagain
    simp only [ChannelSetup.envelopeActions, List.foldl_cons, List.foldl_nil, performed_switch]
    exact ⟨h.held, hagain⟩

theorem arranged_setups (setups : List ChannelSetup) :
    (setups.foldl Noise.setUp fresh).Arranged (lastOf (·.envelope) setups) := by
  refine foldl_setups_keep (P := fun setups n => Arranged (lastOf (·.envelope) setups) n)
    ?_ ?_ setups
  · exact ⟨rfl, rfl⟩
  · intro setups s n h
    rw [lastOf_concat]
    exact h.setUp s

theorem setUp_supported (n : Noise) {s : ChannelSetup} (hs : s.channel = Channel.noise.number) :
    n.setUp s.supported = n.setUp s := by
  rw [setUp_eq, setUp_eq, ChannelSetup.supported_of_channel hs]
  rfl

end Noise

/-! ## The setup of a whole patch -/

namespace Patch

variable {ρ : Type}

/-- The last value of a field among the setups of a channel. -/
def lastGiven {α : Type} (p : Patch) (c : Channel) (field : ChannelSetup → Option α) : Option α :=
  lastOf field (setupsOf c p.channels)

/-- The patch without what its channels do not have. -/
def supported (p : Patch) : Patch := { p with channels := p.channels.map ChannelSetup.supported }

/-- The silent synthesizer after the setup of the patch. -/
def setUp (p : Patch) (t : Tuning) (source : ρ) : Synth ρ :=
  (Synth.tuned t source).appliedAll p.setupCommands

variable (p : Patch) (t : Tuning) (source : ρ)

theorem square_setUp (side : Side) :
    (p.setUp t source).square side =
      (setupsOf side.channel p.channels).foldl (Square.setUp t)
        ((Synth.tuned t source).square side) :=
  (Synth.sees_square t side).setups p.channels rfl

theorem triangle_setUp :
    (p.setUp t source).triangle =
      (setupsOf .triangle p.channels).foldl (Triangle.setUp t) (Triangle.fresh 32) :=
  (Synth.sees_triangle t).setups (s := Synth.tuned t source) p.channels rfl

theorem noise_setUp :
    (p.setUp t source).noise = (setupsOf .noise p.channels).foldl Noise.setUp Noise.fresh :=
  (Synth.sees_noise t).setups (s := Synth.tuned t source) p.channels rfl

theorem arranged_square (side : Side) :
    ((p.setUp t source).square side).Arranged t
      ((p.lastGiven side.channel (·.duty)).getD ((Synth.tuned t source).square side).phase.duty)
      (p.lastGiven side.channel (·.envelope)) (p.lastGiven side.channel (·.vibrato)) := by
  rw [square_setUp]
  cases side with
  | a => exact Square.arranged_setups t 64 _
  | b => exact Square.arranged_setups t 127 _

/-- What a channel does not have changes nothing. -/
theorem setUp_supported : p.supported.setUp t source = p.setUp t source := by
  have hsquare : ∀ side,
      (p.supported.setUp t source).square side = (p.setUp t source).square side := by
    intro side
    rw [square_setUp, square_setUp]
    exact foldl_supported (P := fun _ => True) (fun _ _ _ => trivial)
      (fun q s _ hs => q.setUp_supported hs) p.channels trivial
  have htriangle : (p.supported.setUp t source).triangle = (p.setUp t source).triangle := by
    rw [triangle_setUp, triangle_setUp]
    refine foldl_supported (P := fun r => ∃ duty, r.Arranged duty) ?_ ?_ p.channels
      ⟨32, rfl, rfl, rfl⟩
    · rintro r s ⟨duty, h⟩
      exact ⟨_, h.setUp s⟩
    · rintro r s ⟨duty, h⟩ hs
      exact Triangle.setUp_supported h.flag hs
  have hnoise : (p.supported.setUp t source).noise = (p.setUp t source).noise := by
    rw [noise_setUp, noise_setUp]
    exact foldl_supported (P := fun _ => True) (fun _ _ _ => trivial)
      (fun n s _ hs => n.setUp_supported hs) p.channels trivial
  obtain ⟨ht, hsource, hring⟩ :=
    Synth.rest_appliedAll p.setupCommands (Synth.tuned t source)
  obtain ⟨ht', hsource', hring'⟩ :=
    Synth.rest_appliedAll p.supported.setupCommands (Synth.tuned t source)
  refine Synth.ext_parts (fun c => ?_) (ht'.trans ht.symm) (hring'.trans hring.symm)
  cases c with
  | squareA => exact congrArg Part.square (hsquare .a)
  | squareB => exact congrArg Part.square (hsquare .b)
  | triangle => exact congrArg Part.triangle htriangle
  | noise => exact congrArg₂ Part.noise hnoise (hsource'.trans hsource.symm)

/-- The amplitude of a voice that switches is that of its last envelope. -/
theorem amplitude_setUp (v : Switching) :
    (p.setUp t source).amplitude v = Amplitude.arranged (p.lastGiven v.channel (·.envelope)) := by
  cases v with
  | square side => exact (p.arranged_square t source side).amplitude
  | noise =>
    have hnoise := Noise.arranged_setups (setupsOf .noise p.channels)
    rw [← p.noise_setUp t source] at hnoise
    exact hnoise.amplitude

/-- The setup of a patch always succeeds. Each field of a channel is then the last one its setups
give, kept to the limits, or else the one it has from the start; what a channel does not have and
what names no channel changes nothing. No note is held, and no envelope has a level to take over. -/
theorem last_setup_wins :
    let start := Synth.tuned t source
    ∃ s, start.applyAll p.setupCommands = .ok s ∧
      (∀ side, (s.square side).phase.duty =
        (p.lastGiven side.channel (·.duty)).getD (start.square side).phase.duty) ∧
      s.triangle.phase.duty = (p.lastGiven .triangle (·.duty)).getD start.triangle.phase.duty ∧
      (∀ v : Switching, ((s.amplitude v).envelope.params, (s.amplitude v).envelope.enabled) =
        ((p.lastGiven v.channel (·.envelope)).map fun e =>
          ((⟨min e.params.attack 127, min e.params.decay 127, min e.params.sustain 127,
            min e.params.release 127⟩ : EnvelopeParams), e.enabled)).getD
          ((start.amplitude v).envelope.params, (start.amplitude v).envelope.enabled)) ∧
      (∀ side, ((s.square side).vibrato.params, (s.square side).vibrato.enabled) =
        ((p.lastGiven side.channel (·.vibrato)).map fun v =>
          ((⟨min v.params.rate 127, v.params.depth⟩ : VibratoParams), v.enabled)).getD
          ((start.square side).vibrato.params, (start.square side).vibrato.enabled)) ∧
      ((∀ side, (s.square side).held = false) ∧ s.triangle.held = false ∧ s.noise.held = false) ∧
      (∀ v : Switching, (s.amplitude v).envelope.pending = false) ∧
      start.applyAll p.supported.setupCommands = .ok s := by
  intro start
  have hsquare := p.arranged_square t source
  have htriangle := Triangle.arranged_setups t 32 (setupsOf .triangle p.channels)
  rw [← p.triangle_setUp t source] at htriangle
  have hnoise := Noise.arranged_setups (setupsOf .noise p.channels)
  rw [← p.noise_setUp t source] at hnoise
  refine ⟨p.setUp t source, Synth.applyAll_eq _ _, fun side => (hsquare side).duty,
    htriangle.duty, ?_, ?_, ⟨fun side => (hsquare side).held, htriangle.held, hnoise.held⟩, ?_, ?_⟩
  · intro v
    rw [amplitude_setUp]
    cases p.lastGiven v.channel (·.envelope) with
    | none => cases v with
      | square side => cases side <;> rfl
      | noise => rfl
    | some e => rfl
  · intro side
    rw [(hsquare side).vibrato]
    cases p.lastGiven side.channel (·.vibrato) with
    | none => cases side <;> rfl
    | some v => rfl
  · intro v
    rw [amplitude_setUp]
    cases p.lastGiven v.channel (·.envelope) <;> rfl
  · rw [Synth.applyAll_eq]
    exact congrArg Except.ok (p.setUp_supported t source)

end Patch

end Chiptune
