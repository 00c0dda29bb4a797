import Chiptune.Proofs.Parts
import Chiptune.Proofs.Ticks

/-!
# Levels without an envelope

With the envelope disabled a note sets the two levels of a voice at once. An
envelope that was switched off may have left a pending factor behind, and
nothing takes the mark away before the voice starts a cycle and applies it. The
levels of a note therefore last through its first cycle; from the second cycle
on they are the limit scaled by the pending factor, if there was one
(`level_lasts_iff`).

A square ends a cycle with the sample that wraps its phase. The noise begins one
with the sample that draws a bit.
-/

set_option autoImplicit false

namespace Chiptune

theorem natAbs_toInt_neg (x : Int16) : (-x).toInt.natAbs = x.toInt.natAbs := by
  -- the least number is its own negation
  by_cases hmin : x.toInt = -32768
  · rw [Int16.toInt_neg, hmin]
    rfl
  · rw [toInt_neg_of_ne hmin, Int.natAbs_neg]

/-! ## Levels from cycle to cycle -/

namespace Amplitude

/-- The magnitude of a level once a factor is applied. -/
def scaledMagnitude (a : Amplitude) : Nat :=
  (scaledLevel a.limit a.envelope.factor).toInt.natAbs

/-- The magnitude in a cycle after a note that set the level. -/
def magnitudeIn (a : Amplitude) (level cycle : Nat) : Nat :=
  if cycle = 0 ∨ a.envelope.pending = false then level else a.scaledMagnitude

/-- The levels of a voice in a cycle after the start, with a disabled envelope. -/
structure Holds (a start : Amplitude) (level cycle : Nat) : Prop where
  disabled : a.envelope.enabled = false
  limit_eq : a.limit = start.limit
  factor_eq : a.envelope.factor = start.envelope.factor
  pending_eq : a.envelope.pending = (start.envelope.pending && decide (cycle = 0))
  high_eq : a.high.toInt.natAbs = start.magnitudeIn level cycle
  low_eq : a.low.toInt.natAbs = start.magnitudeIn level cycle

theorem holds_begun {a : Amplitude} (h : a.envelope.enabled = false) (velocity : UInt8) :
    (a.begun velocity).Holds (a.begun velocity) (32 * velocity.toNat) 0 := by
  have hbegun : a.begun velocity =
      { a with limit := levelFor velocity, high := levelFor velocity,
               low := -levelFor velocity } := by
    unfold begun
    rw [h]
    rfl
  have hlevel : (levelFor velocity).toInt.natAbs = 32 * velocity.toNat := by
    rw [toInt_levelFor]
    omega
  have hzero : (a.begun velocity).magnitudeIn (32 * velocity.toNat) 0 = 32 * velocity.toNat :=
    if_pos (Or.inl rfl)
  refine ⟨?_, rfl, rfl, (Bool.and_true _).symm, ?_, ?_⟩
  · rw [hbegun]
    exact h
  · rw [hzero, hbegun]
    exact hlevel
  · rw [hzero, hbegun]
    exact (natAbs_toInt_neg _).trans hlevel

theorem holds_stop {a : Amplitude} (h : a.envelope.enabled = false) :
    a.stop.Holds a.stop 0 0 := by
  have hstop : a.stop = { a with high := 0, low := 0 } := by
    unfold stop
    rw [h]
    rfl
  have hzero : a.stop.magnitudeIn 0 0 = 0 := if_pos (Or.inl rfl)
  refine ⟨?_, rfl, rfl, (Bool.and_true _).symm, ?_, ?_⟩
  · rw [hstop]
    exact h
  · rw [hzero, hstop]
    rfl
  · rw [hzero, hstop]
    rfl

section Holds

variable {a start : Amplitude} {level cycle : Nat}

/-- The next cycle takes a pending factor. -/
theorem Holds.refresh (h : a.Holds start level cycle) :
    a.refresh.Holds start level (cycle + 1) := by
  rcases a.refresh_cases with ⟨hpending, hsame⟩ | ⟨hpending, htaken⟩
  · -- either nothing was pending, or it was taken in an earlier cycle
    have hmagnitude : start.magnitudeIn level (cycle + 1) = start.magnitudeIn level cycle := by
      have hnot := h.pending_eq
      rw [hpending] at hnot
      unfold magnitudeIn
      cases hstart : start.envelope.pending with
      | false => rw [if_pos (Or.inr rfl), if_pos (Or.inr rfl)]
      | true =>
        rw [hstart, Bool.true_and] at hnot
        have hcycle : ¬ cycle = 0 := of_decide_eq_false hnot.symm
        rw [if_neg (by simp), if_neg (by simpa using hcycle)]
    rw [hsame]
    refine ⟨h.disabled, h.limit_eq, h.factor_eq, ?_, ?_, ?_⟩
    · rw [hpending, decide_eq_false (Nat.succ_ne_zero cycle), Bool.and_false]
    · rw [hmagnitude]
      exact h.high_eq
    · rw [hmagnitude]
      exact h.low_eq
  · -- the factor is taken here and the mark is gone after it
    have hstart : start.envelope.pending = true := by
      have hboth := h.pending_eq
      rw [hpending] at hboth
      exact (Bool.and_eq_true_iff.1 hboth.symm).1
    have hmagnitude : start.magnitudeIn level (cycle + 1) = start.scaledMagnitude := by
      unfold magnitudeIn
      rw [hstart, if_neg (by simp)]
    have hscaled : (scaledLevel a.limit a.envelope.factor).toInt.natAbs =
        start.scaledMagnitude := by
      rw [h.limit_eq, h.factor_eq]
      rfl
    rw [htaken]
    refine ⟨h.disabled, h.limit_eq, h.factor_eq, ?_, ?_, ?_⟩
    · rw [decide_eq_false (Nat.succ_ne_zero cycle), Bool.and_false]
      rfl
    · rw [hmagnitude]
      exact hscaled
    · rw [hmagnitude]
      exact (natAbs_toInt_neg _).trans hscaled

theorem Holds.withParams (h : a.Holds start level cycle) (params : EnvelopeParams) :
    (a.withParams params).Holds start level cycle :=
  ⟨h.disabled, h.limit_eq, h.factor_eq, h.pending_eq, h.high_eq, h.low_eq⟩

theorem Holds.envelopeOff (h : a.Holds start level cycle) :
    (a.setEnvelope false).Holds start level cycle :=
  ⟨rfl, h.limit_eq, h.factor_eq, h.pending_eq, h.high_eq, h.low_eq⟩

theorem Holds.modulate (h : a.Holds start level cycle) : a.modulate = .ok a :=
  modulate_of_disabled h.disabled

end Holds

end Amplitude

/-! ## Hearing one voice -/

/-- A channel whose voice switches between two levels. -/
inductive Switching where
  | square (side : Side)
  | noise
  deriving DecidableEq, Repr

def Switching.channel : Switching → Channel
  | .square side => side.channel
  | .noise => .noise

/-- A sample of one voice, and the number of its cycle. -/
structure Heard where
  cycle : Nat
  sample : Int16
  deriving DecidableEq, Repr

/-- The level that an action sets when the envelope is disabled. -/
def Action.level? : Action → Option Nat
  | .noteOn _ velocity => some (32 * velocity.toNat)
  | .noteOff => some 0
  | .setDuty _ | .configureVibrato _ | .vibratoOn | .vibratoOff | .configureEnvelope _
  | .envelopeOn | .envelopeOff => none

/-- The move neither sets the level of a voice nor enables its envelope. -/
def Move.LeavesLevel (v : Switching) : Move → Prop
  | .command c => ∀ action, c.actionFor v.channel = some action →
      action.level? = none ∧ action ≠ .envelopeOn
  | .modulate | .mix | .tick | .pop => True

section Voices

variable {start : Amplitude} {level cycle : Nat}

theorem Square.holds_next {s s' : Square} {x : Int16} (h : s.amplitude.Holds start level cycle)
    (hok : s.next = .ok (x, s')) :
    x.toInt.natAbs = start.magnitudeIn level cycle ∧
      s'.amplitude.Holds start level
        (if s.isHigh && !s'.isHigh then cycle + 1 else cycle) := by
  rcases next_cases s with ⟨-, herror⟩ | ⟨-, hsame⟩ | ⟨-, time, -, ⟨hlow, hok'⟩ |
    ⟨hhigh, -, hok'⟩ | ⟨hhigh, -, rest, -, hok'⟩⟩
  · rw [hok] at herror
    cases herror
  · rw [hok] at hsame
    cases hsame
    rw [Bool.and_not_self]
    exact ⟨h.low_eq, h⟩
  · rw [hok] at hok'
    cases hok'
    rw [hlow, Bool.false_and]
    exact ⟨h.low_eq, h⟩
  · rw [hok] at hok'
    cases hok'
    rw [show (s.atTime time).isHigh = s.isHigh from rfl, Bool.and_not_self]
    exact ⟨h.high_eq, h⟩
  · -- the wrapping sample still has the old level
    rw [hok] at hok'
    cases hok'
    rw [hhigh]
    exact ⟨h.high_eq, h.refresh⟩

theorem Noise.natAbs_output {s : Noise} (h : s.amplitude.Holds start level cycle) :
    s.output.toInt.natAbs = start.magnitudeIn level cycle := by
  unfold output
  split
  · exact h.high_eq
  · exact h.low_eq

theorem Noise.holds_next {ρ : Type} [BitSource ρ] {s s' : Noise} {source source' : ρ} {x : Int16}
    (h : s.amplitude.Holds start level cycle) (hok : s.next source = .ok (x, s', source')) :
    x.toInt.natAbs = start.magnitudeIn level (if s.counter = 0 then cycle + 1 else cycle) ∧
      s'.amplitude.Holds start level (if s.counter = 0 then cycle + 1 else cycle) := by
  rcases next_cases s source with ⟨hzero, hok'⟩ | ⟨hne, hok'⟩
  · -- the sample that draws a bit already has the new level
    rw [hok] at hok'
    cases hok'
    rw [if_pos hzero]
    have hreloaded :
        (s.reloaded (BitSource.draw source).1).amplitude.Holds start level (cycle + 1) := h.refresh
    exact ⟨natAbs_output hreloaded, hreloaded⟩
  · rw [hok] at hok'
    cases hok'
    rw [if_neg hne]
    exact ⟨natAbs_output h, h⟩

theorem Square.amplitude_stepVibrato {s s' : Square} (hok : s.stepVibrato = .ok s') :
    s'.amplitude = s.amplitude := by
  obtain ⟨⟨period, vibrato⟩, -, hok⟩ := bind_eq_ok.1 hok
  obtain ⟨phase, -, hok⟩ := bind_eq_ok.1 hok
  cases hok
  rfl

theorem Square.amplitude_modulateVibrato {s s' : Square} (hok : s.modulateVibrato = .ok s') :
    s'.amplitude = s.amplitude := by
  simp only [modulateVibrato] at hok
  split at hok
  · exact amplitude_stepVibrato hok
  · cases hok
    rfl

/-- The vibrato comes first and leaves the levels to the envelope. -/
theorem Square.amplitude_modulate {q q₁ q' : Square} (hvibrato : q.modulateVibrato = .ok q₁)
    (henvelope : q₁.modulateEnvelope = .ok q') : q.amplitude.modulate = .ok q'.amplitude := by
  obtain ⟨a, ha, rfl⟩ := modulateEnvelope_eq_ok.1 henvelope
  rw [← amplitude_modulateVibrato hvibrato]
  exact ha

theorem Noise.amplitude_modulate {n n' : Noise} (henvelope : n.modulateEnvelope = .ok n') :
    n.amplitude.modulate = .ok n'.amplitude := by
  obtain ⟨a, ha, rfl⟩ := modulateEnvelope_eq_ok.1 henvelope
  exact ha

theorem Square.holds_performed {s : Square} (h : s.amplitude.Holds start level cycle) (t : Tuning)
    {action : Action} (hlevel : action.level? = none) (hon : action ≠ .envelopeOn) :
    (s.performed t action).amplitude.Holds start level cycle := by
  cases action with
  | noteOn note velocity => cases hlevel
  | noteOff => cases hlevel
  | envelopeOn => exact absurd rfl hon
  | configureEnvelope params => exact h.withParams params
  | envelopeOff => exact h.envelopeOff
  | setDuty duty => exact h
  | configureVibrato params => exact h
  | vibratoOn => exact h
  | vibratoOff => exact h

theorem Noise.holds_performed {s : Noise} (h : s.amplitude.Holds start level cycle)
    {action : Action} (hlevel : action.level? = none) (hon : action ≠ .envelopeOn) :
    (s.performed action).amplitude.Holds start level cycle := by
  cases action with
  | noteOn note velocity => cases hlevel
  | noteOff => cases hlevel
  | envelopeOn => exact absurd rfl hon
  | configureEnvelope params => exact h.withParams params
  | envelopeOff => exact h.envelopeOff
  | setDuty duty => exact h
  | configureVibrato params => exact h
  | vibratoOn => exact h
  | vibratoOff => exact h

end Voices

namespace Synth

variable {ρ : Type}

/-- The levels of a voice that switches between two of them. -/
def amplitude (s : Synth ρ) : Switching → Amplitude
  | .square side => (s.square side).amplitude
  | .noise => s.noise.amplitude

theorem amplitude_applied {s : Synth ρ} {c : Command} {v : Switching} {action : Action}
    (h : c.actionFor v.channel = some action) :
    (s.applied c).amplitude v = match v with
      | .square side => ((s.square side).performed s.tuning action).amplitude
      | .noise => (s.noise.performed action).amplitude := by
  cases v with
  | square side =>
    show ((s.applied c).square side).amplitude = _
    rw [applied_square, show c.actionFor side.channel = some action from h]
    rfl
  | noise =>
    show (((c.actionFor .noise).map s.noise.performed).getD s.noise).amplitude = _
    rw [show c.actionFor .noise = some action from h]
    rfl

/-- A note or its end sets the levels. -/
theorem holds_applied {s : Synth ρ} {c : Command} {v : Switching} {action : Action} {level : Nat}
    (hoff : (s.amplitude v).envelope.enabled = false) (hc : c.actionFor v.channel = some action)
    (hlevel : action.level? = some level) :
    ((s.applied c).amplitude v).Holds ((s.applied c).amplitude v) level 0 := by
  rw [amplitude_applied hc]
  cases action with
  | noteOn note velocity =>
    cases hlevel
    cases v with
    | square side => exact Amplitude.holds_begun hoff velocity
    | noise => exact Amplitude.holds_begun hoff velocity
  | noteOff =>
    cases hlevel
    cases v with
    | square side => exact Amplitude.holds_stop hoff
    | noise => exact Amplitude.holds_stop hoff
  | setDuty duty => cases hlevel
  | configureVibrato params => cases hlevel
  | vibratoOn => cases hlevel
  | vibratoOff => cases hlevel
  | configureEnvelope params => cases hlevel
  | envelopeOn => cases hlevel
  | envelopeOff => cases hlevel

variable [BitSource ρ]

/-- The next sample of a voice in its cycle, and the number of the cycle after
it. -/
def hear (v : Switching) (s : Synth ρ) (cycle : Nat) : Except Fault (Heard × Nat) :=
  match v with
  | .square side => do
      let (sample, q) ← (s.square side).next
      return (⟨cycle, sample⟩, if (s.square side).isHigh && !q.isHigh then cycle + 1 else cycle)
  | .noise => do
      let (sample, _, _) ← s.noise.next s.source
      let now := if s.noise.counter = 0 then cycle + 1 else cycle
      return (⟨now, sample⟩, now)

/-- The samples of a voice in a run. A fault ends them. -/
def heard (v : Switching) : List Move → Synth ρ → Nat → List Heard
  | [], _, _ => []
  | m :: moves, s, cycle =>
      match s.move m with
      | .error _ => []
      | .ok s' =>
          if s.Samples m then
            match s.hear v cycle with
            | .error _ => []
            | .ok (h, cycle) => h :: heard v moves s' cycle
          else heard v moves s' cycle

section Run

variable {v : Switching} {start : Amplitude} {level cycle : Nat} {s s' : Synth ρ} {m : Move}

/-- A sample has the magnitude of its cycle. -/
theorem hear_of_holds (h : (s.amplitude v).Holds start level cycle) (hm : s.Samples m)
    (hok : s.move m = .ok s') :
    ∃ sound cycle', s.hear v cycle = .ok (sound, cycle') ∧
      sound.sample.toInt.natAbs = start.magnitudeIn level sound.cycle ∧
      (s'.amplitude v).Holds start level cycle' := by
  obtain ⟨x, s₁, hmix, ring', rfl⟩ := move_of_samples hm hok
  obtain ⟨hsquare, ⟨y, hnoise⟩, -⟩ := mix_eq_ok hmix
  cases v with
  | square side =>
    obtain ⟨y, hnext⟩ := hsquare side
    obtain ⟨hlevel, hholds⟩ := Square.holds_next h hnext
    have hsame : (s₁.withRing ring').amplitude (.square side) = (s₁.square side).amplitude :=
      congrArg Square.amplitude (square_withRing s₁ ring' side)
    rw [hsame]
    refine ⟨⟨cycle, y⟩, _, ?_, hlevel, hholds⟩
    show ((s.square side).next >>= _) = _
    rw [hnext]
    rfl
  | noise =>
    obtain ⟨hlevel, hholds⟩ := Noise.holds_next h hnoise
    refine ⟨⟨_, y⟩, _, ?_, hlevel, hholds⟩
    show (s.noise.next s.source >>= _) = _
    rw [hnoise]
    rfl

/-- Any other move leaves the levels. -/
theorem holds_of_not_samples (h : (s.amplitude v).Holds start level cycle)
    (hm : ¬ s.Samples m) (hleaves : m.LeavesLevel v) (hok : s.move m = .ok s') :
    (s'.amplitude v).Holds start level cycle := by
  cases v with
  | square side =>
    show (s'.square side).amplitude.Holds start level cycle
    rcases move_square hok side with ⟨hm', -⟩ | ⟨-, q, hvibrato, henvelope⟩ |
      ⟨c, action, rfl, hc, hsquare⟩ | hsame
    · exact absurd hm' hm
    · have hsame := h.modulate.symm.trans (Square.amplitude_modulate hvibrato henvelope)
      rw [← Except.ok.inj hsame]
      exact h
    · rw [hsquare]
      obtain ⟨hlevel, hon⟩ := hleaves action hc
      exact Square.holds_performed h _ hlevel hon
    · rw [hsame]
      exact h
  | noise =>
    show s'.noise.amplitude.Holds start level cycle
    rcases move_noise hok with ⟨hm', -⟩ | ⟨-, henvelope⟩ | ⟨c, action, rfl, hc, hnoise⟩ | hsame
    · exact absurd hm' hm
    · have hsame := h.modulate.symm.trans (Noise.amplitude_modulate henvelope)
      rw [← Except.ok.inj hsame]
      exact h
    · rw [hnoise]
      obtain ⟨hlevel, hon⟩ := hleaves action hc
      exact Noise.holds_performed h hlevel hon
    · rw [hsame]
      exact h

/-- Every sample of a run has the magnitude of its cycle. -/
theorem heard_of_holds (moves : List Move) {s : Synth ρ} {cycle : Nat}
    (h : (s.amplitude v).Holds start level cycle) (hleaves : ∀ m ∈ moves, m.LeavesLevel v) :
    ∀ sound ∈ heard v moves s cycle,
      sound.sample.toInt.natAbs = start.magnitudeIn level sound.cycle := by
  induction moves generalizing s cycle with
  | nil =>
    intro sound hsound
    cases hsound
  | cons m moves ih =>
    have hrest : ∀ m' ∈ moves, m'.LeavesLevel v := fun m' hm' =>
      hleaves m' (List.mem_cons_of_mem m hm')
    intro sound hsound
    unfold heard at hsound
    cases hok : s.move m with
    | error f =>
      rw [hok] at hsound
      cases hsound
    | ok s' =>
      rw [hok] at hsound
      by_cases hm : s.Samples m
      · obtain ⟨first, cycle', hhear, hlevel, hholds⟩ := hear_of_holds h hm hok
        simp only [if_pos hm, hhear] at hsound
        rcases List.mem_cons.1 hsound with rfl | hsound
        · exact hlevel
        · exact ih hholds hrest sound hsound
      · simp only [if_neg hm] at hsound
        have hholds := holds_of_not_samples h hm (hleaves m List.mem_cons_self) hok
        exact ih hholds hrest sound hsound

end Run

/-- After a note or its end on a voice with a disabled envelope, and until the
next one or until the envelope is enabled, every sample has the level of the note
in the first cycle, and in later cycles if no factor was pending; otherwise it
has the scaled level there. So the level of the note lasts exactly when nothing
was pending, or the scaled level is the same, or the first cycle does not end. -/
theorem level_lasts_iff (s : Synth ρ) (v : Switching) (c : Command) (action : Action) (level : Nat)
    (moves : List Move) (hoff : (s.amplitude v).envelope.enabled = false)
    (hc : c.actionFor v.channel = some action) (hlevel : action.level? = some level)
    (hleaves : ∀ m ∈ moves, m.LeavesLevel v) :
    ∃ s₁, s.apply c = .ok s₁ ∧
      (∀ sound ∈ heard v moves s₁ 0, sound.sample.toInt.natAbs =
        if sound.cycle = 0 ∨ (s₁.amplitude v).envelope.pending = false then level
        else (s₁.amplitude v).scaledMagnitude) ∧
      ((∀ sound ∈ heard v moves s₁ 0, sound.sample.toInt.natAbs = level) ↔
        (s₁.amplitude v).envelope.pending = false ∨ (s₁.amplitude v).scaledMagnitude = level ∨
          ∀ sound ∈ heard v moves s₁ 0, sound.cycle = 0) := by
  have hall := heard_of_holds moves (holds_applied hoff hc hlevel) hleaves
  refine ⟨s.applied c, apply_eq s c, hall, ?_, ?_⟩
  · intro hlasts
    by_cases hpending : ((s.applied c).amplitude v).envelope.pending = false
    · exact Or.inl hpending
    · refine Or.inr ?_
      by_cases hfirst : ∀ sound ∈ heard v moves (s.applied c) 0, sound.cycle = 0
      · exact Or.inr hfirst
      · -- a later cycle is heard at the scaled level, and that is the level that lasts
        obtain ⟨sound, hsound, hcycle⟩ : ∃ sound ∈ heard v moves (s.applied c) 0,
            sound.cycle ≠ 0 := by
          by_contra hnone
          exact hfirst fun sound hsound => by_contra fun hne => hnone ⟨sound, hsound, hne⟩
        refine Or.inl ?_
        have hscaled := hall sound hsound
        rw [hlasts sound hsound] at hscaled
        exact (hscaled.trans (if_neg fun h => h.elim hcycle hpending)).symm
  · rintro hcase sound hsound
    have hmagnitude := hall sound hsound
    rw [hmagnitude]
    rcases hcase with hpending | hsame | hfirst
    · exact if_pos (Or.inr hpending)
    · unfold Amplitude.magnitudeIn
      rw [hsame, ite_self]
    · exact if_pos (Or.inl (hfirst sound hsound))

theorem level_lasts_iff_for_noise :
    let s := (((Synth.tuned ⟨48000, Vector.replicate 128 ⟨262144⟩⟩ (Lfsr.seeded 1)).applied
      (.address 3 .envelopeOn)).applied (.address 3 (.noteOn 127 50))).applied
      (.address 3 .envelopeOff)
    let moves : List Move :=
      [.mix, .modulate, .command (.address 3 (.configureEnvelope ⟨1, 2, 3, 4⟩)), .mix, .mix]
    (s.amplitude .noise).envelope.enabled = false ∧
      ∃ s₁, s.apply (.address 3 (.noteOn 127 100)) = .ok s₁ ∧
        (s₁.amplitude .noise).scaledMagnitude = 0 ∧
        ¬ ∀ sound ∈ heard .noise moves s₁ 0, sound.sample.toInt.natAbs = 3200 := by
  intro s moves
  have hoff : (s.amplitude .noise).envelope.enabled = false := rfl
  have hleaves : ∀ m ∈ moves, m.LeavesLevel .noise := by
    intro m hm
    simp only [moves, List.mem_cons, List.not_mem_nil, or_false] at hm
    rcases hm with rfl | rfl | rfl | rfl | rfl
    · trivial
    · trivial
    · intro action haction
      cases haction
      exact ⟨rfl, by decide⟩
    · trivial
    · trivial
  obtain ⟨s₁, hs₁, -, hlasts⟩ := level_lasts_iff s .noise (.address 3 (.noteOn 127 100))
    (.noteOn 127 100) 3200 moves hoff rfl rfl hleaves
  obtain rfl : s.applied (.address 3 (.noteOn 127 100)) = s₁ :=
    Except.ok.inj ((apply_eq _ _).symm.trans hs₁)
  refine ⟨hoff, _, hs₁, by decide +kernel, ?_⟩
  rw [hlasts]
  decide +kernel

/-- An envelope that was switched off in its attack silences the next note after
one cycle. -/
theorem switched_off_envelope_silences :
    let s := ((Synth.tuned ⟨48000, Vector.replicate 128 ⟨262144⟩⟩ (Lfsr.seeded 1)).applied
      (.address 0 .envelopeOn)).applied (.address 0 (.noteOn 69 100))
    let s₁ := (s.applied (.address 0 .envelopeOff)).applied (.address 0 (.noteOn 69 100))
    heard (.square .a) (List.replicate 6 .mix) s₁ 0 =
      [⟨0, -3200⟩, ⟨0, -3200⟩, ⟨0, 3200⟩, ⟨0, 3200⟩, ⟨1, 0⟩, ⟨1, 0⟩] := by
  decide +kernel

end Synth

end Chiptune
