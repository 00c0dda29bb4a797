import Chiptune.Proofs.Histories
import Chiptune.Proofs.Playback

/-!
# Events handed in while the player runs

A caller hands in events, fills the ring and takes samples in any order. The
history of these calls keeps the events that the player hands out before each
sample it generates. What the player does with them is told by a synthesizer
without a player: it is given the batches of the history one by one, mixes one
sample after each, and is modulated after every `interval` samples (`playFrom`).
The samples of the player are those of that synthesizer, and so is the state of
its voices.

The relation `Tracks` ties a player to a history and to the synthesizer that has
played its batches; one generated sample keeps it (`Tracks.generate`), and so do
a batch (`Tracks.record`) and any calls (`Tracks.serve`). The cursor of a
timeline does not move when an event is inserted before it, so the history is
punctual only as long as no event is earlier than one carried out before
(`punctual_iff_timely`).
-/

set_option autoImplicit false

namespace Chiptune

variable {ρ : Type} [BitSource ρ]

/-! ## Playing batches of events -/

namespace Synth

/-- One sample after the events of a batch, with a modulation tick when the number
of samples is a multiple of the interval. -/
def sampleAfter (interval index : Nat) (batch : List Event) (s : Synth ρ) :
    Except Fault (Int16 × Synth ρ) := do
  let s ← s.applyAll (batch.map Event.command)
  let (sample, s) ← s.mix
  let s ← (if (index + 1) % interval = 0 then s.modulate else .ok s)
  return (sample, s)

/-- The samples from an index on, each of them after its own batch of events. -/
def playFrom (interval : Nat) :
    Nat → List (List Event) → Synth ρ → Except Fault (List Int16 × Synth ρ)
  | _, [], s => .ok ([], s)
  | index, batch :: batches, s => do
      let (sample, s) ← s.sampleAfter interval index batch
      let (samples, s) ← playFrom interval (index + 1) batches s
      return (sample :: samples, s)

variable {interval : Nat}

/-- One more batch gives one more sample. -/
theorem playFrom_append {index : Nat} {batches : List (List Event)} {batch : List Event}
    {s s₁ s₂ : Synth ρ} {samples : List Int16} {sample : Int16}
    (hplay : s.playFrom interval index batches = .ok (samples, s₁))
    (hsample : s₁.sampleAfter interval (index + batches.length) batch = .ok (sample, s₂)) :
    s.playFrom interval index (batches ++ [batch]) = .ok (samples ++ [sample], s₂) := by
  induction batches generalizing index s samples with
  | nil =>
    cases hplay
    rw [List.length_nil, Nat.add_zero] at hsample
    simp only [List.nil_append, playFrom, hsample]
    rfl
  | cons first batches ih =>
    obtain ⟨⟨x, s'⟩, hfirst, hplay⟩ := bind_eq_ok.1 hplay
    obtain ⟨⟨xs, s₁'⟩, hrest, hplay⟩ := bind_eq_ok.1 hplay
    cases hplay
    rw [List.length_cons, Nat.add_comm batches.length 1, ← Nat.add_assoc] at hsample
    have hmore := ih hrest hsample
    simp only [List.cons_append, playFrom, hfirst, bind, Except.bind, hmore]
    rfl

end Synth

/-- A step of the loop is the sample after its due events. -/
theorem Loop.step_eq_sampleAfter (interval : Nat) (l : Loop ρ) :
    l.step interval = (l.synth.sampleAfter interval l.index l.due).map fun r =>
      (r.1, ⟨r.2, l.later, l.index + 1⟩) := by
  unfold Loop.step Synth.sampleAfter
  rw [Synth.applyAll_eq]
  simp only [bind, Except.bind]
  cases (l.synth.appliedAll (l.due.map Event.command)).mix with
  | error f => rfl
  | ok r =>
    simp only
    cases (if (l.index + 1) % interval = 0 then r.2.modulate else .ok r.2) <;> rfl

section Follows

variable {interval : UInt32} {p : Player ρ} {l l' : Loop ρ}

/-- The sample that the loop plays comes after the events that the player hands out. -/
theorem Player.Follows.sampleAfter_eq (h : Player.Follows interval p l) {samples : List Int16}
    (hrun : l.run interval.toNat 1 = .ok (samples, l')) :
    ∃ x, samples = [x] ∧ l'.index = l.index + 1 ∧
      l.synth.sampleAfter interval.toNat l.index p.due = .ok (x, l'.synth) := by
  obtain ⟨x, hstep, rfl⟩ := Loop.run_one.1 hrun
  refine ⟨x, rfl, Loop.step_index hstep, ?_⟩
  rw [Loop.step_eq_sampleAfter, ← h.due_eq] at hstep
  cases hsample : l.synth.sampleAfter interval.toNat l.index p.due with
  | error f =>
    rw [hsample] at hstep
    cases hstep
  | ok r =>
    rw [hsample] at hstep
    cases hstep
    rfl

/-- A loop that fails at its next sample does so after those events, or the clock of
the player has run out. -/
theorem Player.Follows.sampleAfter_error (h : Player.Follows interval p l) {f : Fault}
    (hfails : l.Fails interval.toNat 1 f) :
    l.synth.sampleAfter interval.toNat l.index p.due = .error f ∨
      f = .addOverflow ∧ l.index + 1 = UInt64.size := by
  rcases hfails with hrun | ⟨hfault, hsize⟩
  · refine Or.inl ?_
    rcases Loop.run_succ_eq_error.1 hrun with hstep | ⟨x, l₁, -, hnone⟩
    · rw [Loop.step_eq_sampleAfter, ← h.due_eq] at hstep
      cases hsample : l.synth.sampleAfter interval.toNat l.index p.due with
      | error f =>
        rw [hsample] at hstep
        cases hstep
        rfl
      | ok r =>
        rw [hsample] at hstep
        cases hstep
    · cases hnone
  · have hlt := p.generated.toNat_lt
    rw [h.generated_eq] at hlt
    exact Or.inr ⟨hfault, Nat.le_antisymm hlt hsize⟩

end Follows

/-! ## The calls and their history -/

/-- What a caller does with a player. -/
inductive Call where
  | schedule (e : Event)
  | fill
  | next
  deriving DecidableEq, Repr

namespace Player

/-- The samples that some calls take, and the player after them. -/
def serve : List Call → Player ρ → Except (Halt ρ) (List Int16 × Player ρ)
  | [], p => .ok ([], p)
  | .schedule e :: calls, p => (p.schedule e).serve calls
  | .fill :: calls, p => do (← p.fill).serve calls
  | .next :: calls, p => do
      let (sample, p) ← p.next
      let (samples, p) ← p.serve calls
      return (sample :: samples, p)

/-- The history after `n` more samples. A halt ends it. -/
def record : Nat → Player ρ → History → History
  | 0, _, h => h
  | n + 1, p, h =>
      match p.generate with
      | .ok q => record n q (h.carry p.due)
      | .error _ => h

/-- The history after some calls. A halt ends it. -/
def history : List Call → Player ρ → History → History
  | [], _, h => h
  | .schedule e :: calls, p, h => history calls (p.schedule e) (h.issue e)
  | .fill :: calls, p, h =>
      match p.fill with
      | .ok q => history calls q (p.record p.room h)
      | .error _ => p.record p.room h
  | .next :: calls, p, h =>
      let h := if p.synth.ring.isEmpty then p.record p.room h else h
      match p.next with
      | .ok (_, q) => history calls q h
      | .error _ => h

theorem serve_next {p q : Player ρ} {x : Int16} (h : p.next = .ok (x, q)) (calls : List Call) :
    p.serve (.next :: calls) = (q.serve calls).map fun r => (x :: r.1, r.2) := by
  simp only [serve, h, bind, Except.bind]
  cases q.serve calls <;> rfl

omit [BitSource ρ] in
theorem clock_timeline {p q : Player ρ} (h : p.clock = .ok q) : q.timeline = p.timeline := by
  unfold clock at h
  obtain ⟨generated, -, h⟩ := bind_eq_ok.1 h
  obtain ⟨since, -, h⟩ := bind_eq_ok.1 h
  split at h
  · obtain ⟨synth, -, h⟩ := bind_eq_ok.1 h
    cases h
    rfl
  · cases h
    rfl

theorem generate_timeline {p q : Player ρ} (h : p.generate = .ok q) :
    q.timeline = p.timeline.drain p.generated := by
  cases hattempt : p.attempt with
  | error f =>
    obtain ⟨halt, hhalt, -⟩ := generate_of_attempt_error hattempt
    rw [hhalt] at h
    cases h
  | ok q' =>
    rw [generate_of_attempt_ok hattempt] at h
    cases h
    unfold attempt at hattempt
    obtain ⟨s₁, -, hattempt⟩ := bind_eq_ok.1 hattempt
    obtain ⟨s₂, -, hclock⟩ := bind_eq_ok.1 hattempt
    exact clock_timeline hclock

/-- A halt keeps all of the player but the events that it has handed out. -/
theorem generate_halt {p : Player ρ} {halt : Halt ρ} (h : p.generate = .error halt) :
    halt.player = { p with timeline := p.timeline.drain p.generated } := by
  have hmap : Except.mapError _ p.attempt = .error halt := h
  cases hattempt : p.attempt with
  | error f =>
    rw [hattempt] at hmap
    cases hmap
    rfl
  | ok q =>
    rw [hattempt] at hmap
    cases hmap

/-- The player agrees with a history: its timeline holds the events handed in and
has passed over those carried out, and a synthesizer that has played the batches
has given the samples that were taken and those in the ring. -/
structure Tracks (synth : Synth ρ) (interval : UInt32) (taken : List Int16) (p : Player ρ)
    (h : History) : Prop where
  kept : h.Kept
  events_eq : p.timeline.events.toList = inTimeOrder h.events
  cursor_eq : p.timeline.cursor = h.applied.length
  played : ∃ l samples, Follows interval p l ∧ l.index = h.batches.length ∧
    synth.playFrom interval.toNat 0 h.batches = .ok (samples, l.synth) ∧
    synth.ring.contents ++ samples = taken ++ p.synth.ring.contents

/-- The player halted after a history: the sample after the events that it handed
out last is a fault, or its clock has run out. -/
structure Halted (synth : Synth ρ) (interval : UInt32) (h : History) (halt : Halt ρ) : Prop where
  kept : h.Kept
  played : ∃ samples s, synth.playFrom interval.toNat 0 h.batches = .ok (samples, s) ∧
    halt.player.synth = s.withRing halt.player.synth.ring ∧
    (s.sampleAfter interval.toNat h.batches.length (halt.player.timeline.between
        h.applied.length halt.player.timeline.cursor) = .error halt.fault ∨
      halt.fault = .addOverflow ∧ h.batches.length + 1 = UInt64.size)

section Tracks

variable {synth : Synth ρ} {interval : UInt32} {taken : List Int16} {p : Player ρ} {h : History}

theorem Tracks.generated_eq (ht : Tracks synth interval taken p h) :
    p.generated.toNat = h.batches.length := by
  obtain ⟨l, samples, hfollows, hindex, -⟩ := ht.played
  rw [hfollows.generated_eq, hindex]

theorem Tracks.due_eq (ht : Tracks synth interval taken p h) :
    p.due = h.handedOut p.generated := by
  rw [due, Timeline.between_drain, Timeline.waiting, ht.events_eq, ht.cursor_eq]
  rfl

theorem Tracks.schedule (ht : Tracks synth interval taken p h) (e : Event) :
    Tracks synth interval taken (p.schedule e) (h.issue e) where
  kept := ht.kept.issue e
  events_eq := by
    show (p.timeline.push e).events.toList = _
    rw [Timeline.push_toList, ht.events_eq, insertInTime_inTimeOrder]
    unfold History.events History.issue
    rw [List.map_append]
    rfl
  cursor_eq := ht.cursor_eq
  played := by
    obtain ⟨l, samples, hfollows, hindex, hplay, hsplit⟩ := ht.played
    refine ⟨{ l with waiting := (p.schedule e).timeline.waiting }, samples, ?_, hindex, hplay,
      hsplit⟩
    exact { hfollows with ordered := Timeline.push_ordered hfollows.ordered e, waiting_eq := rfl }

/-- One generated sample is the sample after the events handed out. -/
theorem Tracks.generate (hpos : 0 < interval.toNat) (ht : Tracks synth interval taken p h)
    (hroom : p.synth.ring.length < ringCapacity) :
    (∃ q, p.generate = .ok q ∧ Tracks synth interval taken q (h.carry p.due) ∧
      q.synth.ring.length = p.synth.ring.length + 1) ∨
    (∃ halt, p.generate = .error halt ∧ Halted synth interval h halt) := by
  obtain ⟨l, samples, hfollows, hindex, hplay, hsplit⟩ := ht.played
  rcases generate_cases hpos hfollows hroom with
    ⟨xs, l', q, ⟨hrun, -⟩, hgenerate, hfollows', hcontents⟩ | ⟨halt, hgenerate, -, hfails⟩
  · obtain ⟨x, rfl, hindex', hsample⟩ := hfollows.sampleAfter_eq hrun
    have htimeline := generate_timeline hgenerate
    have hlength := congrArg List.length hcontents
    rw [List.length_append, SampleRing.contents_length, SampleRing.contents_length] at hlength
    refine Or.inl ⟨q, hgenerate, ⟨?_, ?_, ?_, ?_⟩, hlength⟩
    · rw [ht.due_eq]
      exact ht.kept.carry ht.generated_eq
    · rw [htimeline]
      exact ht.events_eq
    · rw [htimeline, Timeline.drain_cursor, ht.cursor_eq, due, Timeline.between_drain]
      simp [History.carry, History.applied]
    · refine ⟨l', samples ++ [x], hfollows', ?_, ?_, ?_⟩
      · rw [hindex', hindex]
        simp [History.carry]
      · refine Synth.playFrom_append hplay ?_
        rw [Nat.zero_add, ← hindex]
        exact hsample
      · rw [hcontents, ← List.append_assoc, hsplit, List.append_assoc]
  · have hplayer := generate_halt hgenerate
    refine Or.inr ⟨halt, hgenerate, ht.kept, samples, l.synth, hplay, ?_, ?_⟩
    · rw [hplayer]
      exact hfollows.synth_eq
    · -- what the halt has handed out are the events that were due
      rw [hplayer, ← ht.cursor_eq, ← hindex]
      exact hfollows.sampleAfter_error hfails

/-- A batch of generated samples. -/
theorem Tracks.record (hpos : 0 < interval.toNat) (n : Nat) {p : Player ρ} {h : History}
    (ht : Tracks synth interval taken p h) (hroom : p.synth.ring.length + n ≤ ringCapacity) :
    (∃ q, p.generateMany n = .ok q ∧ Tracks synth interval taken q (p.record n h) ∧
      q.synth.ring.length = p.synth.ring.length + n) ∨
    (∃ halt, p.generateMany n = .error halt ∧ Halted synth interval (p.record n h) halt) := by
  induction n generalizing p h with
  | zero => exact Or.inl ⟨p, rfl, ht, rfl⟩
  | succ n ih =>
    unfold Player.record generateMany
    rcases ht.generate hpos (by omega) with ⟨q, hgenerate, hq, hlength⟩ | ⟨halt, hgenerate, hhalt⟩
    · rw [hgenerate]
      rcases ih hq (by omega) with ⟨q', hmany, hq', hlength'⟩ | ⟨halt, hmany, hhalt⟩
      · exact Or.inl ⟨q', hmany, hq', by omega⟩
      · exact Or.inr ⟨halt, hmany, hhalt⟩
    · rw [hgenerate]
      exact Or.inr ⟨halt, rfl, hhalt⟩

theorem Tracks.fill (hpos : 0 < interval.toNat) (ht : Tracks synth interval taken p h) :
    (∃ q, p.fill = .ok q ∧ Tracks synth interval taken q (p.record p.room h) ∧
      q.synth.ring.length = ringCapacity) ∨
    (∃ halt, p.fill = .error halt ∧ Halted synth interval (p.record p.room h) halt) := by
  have hle : p.synth.ring.length ≤ ringCapacity := by
    obtain ⟨l, samples, hfollows, -⟩ := ht.played
    exact hfollows.sound.length_le
  have hroom : p.synth.ring.length + p.room = ringCapacity := Nat.add_sub_cancel' hle
  rcases ht.record hpos p.room hroom.le with ⟨q, hfill, hq, hlength⟩ | ⟨halt, hfill, hhalt⟩
  · exact Or.inl ⟨q, hfill, hq, hlength.trans hroom⟩
  · exact Or.inr ⟨halt, hfill, hhalt⟩

/-- A ring that holds a sample gives it without generating. -/
theorem Tracks.next (ht : Tracks synth interval taken p h) (hne : p.synth.ring.length ≠ 0) :
    ∃ x q, p.next = .ok (x, q) ∧ Tracks synth interval (taken ++ [x]) q h := by
  obtain ⟨l, samples, hfollows, hindex, hplay, hsplit⟩ := ht.played
  obtain ⟨x, q, hnext, hfollows', htimeline, hcontents⟩ := next_of_nonempty hfollows hne
  refine ⟨x, q, hnext, ht.kept, ?_, ?_, l, samples, hfollows', hindex, hplay, ?_⟩
  · rw [htimeline]
    exact ht.events_eq
  · rw [htimeline]
    exact ht.cursor_eq
  · rw [hsplit, hcontents, List.append_assoc]
    rfl

/-- Whatever the calls, the player goes on agreeing with their history, or it
halts. -/
theorem Tracks.serve (hpos : 0 < interval.toNat) (calls : List Call) {taken : List Int16}
    {p : Player ρ} {h : History} (ht : Tracks synth interval taken p h) :
    (∃ samples q, p.serve calls = .ok (samples, q) ∧
      Tracks synth interval (taken ++ samples) q (p.history calls h)) ∨
    (∃ halt, p.serve calls = .error halt ∧
      Halted synth interval (p.history calls h) halt) := by
  induction calls generalizing taken p h with
  | nil =>
    refine Or.inl ⟨[], p, rfl, ?_⟩
    rw [List.append_nil]
    exact ht
  | cons call calls ih =>
    cases call with
    | schedule e => exact ih (ht.schedule e)
    | fill =>
      unfold Player.serve Player.history
      rcases ht.fill hpos with ⟨q, hfill, hq, -⟩ | ⟨halt, hfill, hhalt⟩
      · rw [hfill]
        exact ih hq
      · rw [hfill]
        exact Or.inr ⟨halt, rfl, hhalt⟩
    | next =>
      -- the induction hypothesis, for a player that holds a sample to give first
      have given {q : Player ρ} {h₁ : History} (hq : Tracks synth interval taken q h₁)
          (hne : q.synth.ring.length ≠ 0) (hnext : p.next = q.next)
          (hh : (if p.synth.ring.isEmpty then p.record p.room h else h) = h₁) :
          (∃ samples q', p.serve (.next :: calls) = .ok (samples, q') ∧
            Tracks synth interval (taken ++ samples) q' (p.history (.next :: calls) h)) ∨
          (∃ halt, p.serve (.next :: calls) = .error halt ∧
            Halted synth interval (p.history (.next :: calls) h) halt) := by
        obtain ⟨x, q', hx, hq'⟩ := hq.next hne
        have hserve := serve_next (hnext.trans hx) calls
        have hhistory : p.history (.next :: calls) h = q'.history calls h₁ := by
          simp only [history, hh, hnext, hx]
        rw [hserve, hhistory]
        rcases ih hq' with ⟨samples, q'', hrest, hq''⟩ | ⟨halt, hrest, hhalt⟩
        · refine Or.inl ⟨x :: samples, q'', by rw [hrest]; rfl, ?_⟩
          rw [List.append_assoc] at hq''
          exact hq''
        · exact Or.inr ⟨halt, by rw [hrest]; rfl, hhalt⟩
      by_cases hzero : p.synth.ring.length = 0
      · have hempty : p.synth.ring.isEmpty = true := (SampleRing.isEmpty_iff _).2 hzero
        rcases ht.fill hpos with ⟨q, hfill, hq, hlength⟩ | ⟨halt, hfill, hhalt⟩
        · have hne : q.synth.ring.length ≠ 0 := by
            rw [hlength]
            decide
          exact given hq hne (next_of_empty hempty hfill hne) (if_pos hempty)
        · have hnext := next_of_fill_error hempty hfill
          refine Or.inr ⟨halt, ?_, ?_⟩
          · simp only [Player.serve, hnext]
            rfl
          · simp only [history, hnext, if_pos hempty]
            exact hhalt
      · exact given ht hzero rfl (if_neg (mt (SampleRing.isEmpty_iff _).1 hzero))

end Tracks

theorem tracks_start (synth : Synth ρ) (hring : synth.ring.Built) (events : List Event)
    (interval : UInt32) :
    Tracks synth (max interval 1) []
      ((start synth (Timeline.ofList events)).withInterval interval) (History.start events) where
  kept := History.kept_start events
  events_eq := by
    show (Timeline.ofList events).events.toList = _
    rw [Timeline.toList_ofList]
    unfold History.events History.start
    rw [List.map_map]
    exact congrArg inTimeOrder (List.map_id events).symm
  cursor_eq := Timeline.extend_cursor events Timeline.empty
  played := ⟨Loop.start synth events, [], follows_start synth hring events interval, rfl, rfl,
    List.append_nil _⟩

/-- Whatever calls are made, the samples taken and those in the ring are the samples
of a synthesizer that is given the batches of the history, and the player has its
voices. A call halts only where such a synthesizer faults, or at the last sample
that the clock can count. The batches are the events as they are owed exactly when no
sample is generated after an event was handed in that is earlier than one carried
out before. It suffices that every event is handed in before the sample after its
own. -/
theorem punctual_iff_timely (synth : Synth ρ) (hring : synth.ring.Built) (events : List Event)
    (interval : UInt32) (calls : List Call) :
    let p := (start synth (Timeline.ofList events)).withInterval interval
    let h := p.history calls (History.start events)
    let spacing := (max interval 1).toNat
    (h.Punctual ↔ h.Timely) ∧
      ((∀ i ∈ h.issued, i.index ≤ i.event.time.toNat + 1) → h.Punctual) ∧
      ∃ samples s, synth.playFrom spacing 0 h.batches = .ok (samples, s) ∧
        (∀ taken q, p.serve calls = .ok (taken, q) →
          synth.ring.contents ++ samples = taken ++ q.synth.ring.contents ∧
          q.synth = s.withRing q.synth.ring) ∧
        (∀ halt, p.serve calls = .error halt →
          halt.player.synth = s.withRing halt.player.synth.ring ∧
          (s.sampleAfter spacing h.batches.length (halt.player.timeline.between
              h.applied.length halt.player.timeline.cursor) = .error halt.fault ∨
            halt.fault = .addOverflow ∧ h.batches.length + 1 = UInt64.size)) := by
  intro p h spacing
  have hpunctual (hkept : h.Kept) : (h.Punctual ↔ h.Timely) ∧
      ((∀ i ∈ h.issued, i.index ≤ i.event.time.toNat + 1) → h.Punctual) :=
    ⟨hkept.punctual_iff, fun hsoon => hkept.punctual_iff.2 (hkept.timely_of_soon hsoon)⟩
  rcases (tracks_start synth hring events interval).serve (toNat_max_one_pos interval) calls with
    ⟨samples, q, hserve, ht⟩ | ⟨halt, hserve, hhalt⟩
  · obtain ⟨l, ys, hfollows, -, hplay, hsplit⟩ := ht.played
    refine ⟨(hpunctual ht.kept).1, (hpunctual ht.kept).2, ys, l.synth, hplay, ?_, ?_⟩
    · intro taken q' hq'
      cases hserve.symm.trans hq'
      exact ⟨hsplit, hfollows.synth_eq⟩
    · intro halt hhalt
      cases hserve.symm.trans hhalt
  · obtain ⟨ys, s, hplay, hsynth, hfault⟩ := hhalt.played
    refine ⟨(hpunctual hhalt.kept).1, (hpunctual hhalt.kept).2, ys, s, hplay, ?_, ?_⟩
    · intro taken q hq
      cases hserve.symm.trans hq
    · intro halt' hhalt'
      cases hserve.symm.trans hhalt'
      exact ⟨hsynth, hfault⟩

/-- A note with a past time, handed in right after the sample of that time was
generated, is carried out before the next sample. -/
theorem punctual_iff_timely_for_past_note :
    let synth := Synth.tuned ⟨48000, Vector.replicate 128 ⟨262144⟩⟩ (Lfsr.seeded 1)
    let events : List Event := [⟨127, .address 0 (.noteOn 69 100)⟩]
    let calls := .next :: .schedule ⟨127, .address 0 (.noteOn 69 50)⟩ :: List.replicate 132 .next
    ∃ p h, (start synth (Timeline.ofList events)).withInterval 3 = p ∧
      p.history calls (History.start events) = h ∧ synth.ring.Built ∧
      (∀ i ∈ h.issued, i.index ≤ i.event.time.toNat + 1) ∧ h.Punctual ∧
      h.owed 128 = [⟨127, .address 0 (.noteOn 69 50)⟩] ∧
      ∃ taken q s, p.serve calls = .ok (taken, q) ∧
        taken.drop 126 = [0, -3200, -1600, -1600, 1600, 1600, -1600] ∧
        synth.playFrom 3 0 h.batches = .ok (taken ++ q.synth.ring.contents, s) ∧
        q.synth = s.withRing q.synth.ring := by
  intro synth events calls
  obtain ⟨p, hp⟩ : ∃ p, (start synth (Timeline.ofList events)).withInterval 3 = p := ⟨_, rfl⟩
  obtain ⟨h, hh⟩ : ∃ h, p.history calls (History.start events) = h := ⟨_, rfl⟩
  have hring : synth.ring.Built := .empty
  have hnone : synth.ring.contents = [] := rfl
  obtain ⟨hsoon, howed⟩ : (∀ i ∈ h.issued, i.index ≤ i.event.time.toNat + 1) ∧
      h.owed 128 = [⟨127, .address 0 (.noteOn 69 50)⟩] := by
    rw [← hh, ← hp]
    decide +kernel
  have htaken : (p.serve calls).toOption.map (fun r => r.1.drop 126) =
      some [0, -3200, -1600, -1600, 1600, 1600, -1600] := by
    rw [← hp]
    decide +kernel
  obtain ⟨⟨taken, q⟩, hserve, hsamples⟩ := exists_ok_of_toOption htaken
  have hall := punctual_iff_timely synth hring events 3 calls
  simp only [hp, hh] at hall
  obtain ⟨-, hpunctual, samples, s, hplay, hok, -⟩ := hall
  obtain ⟨hsplit, hsynth⟩ := hok taken q hserve
  rw [hnone, List.nil_append] at hsplit
  rw [show (max 3 1 : UInt32).toNat = 3 by decide, hsplit] at hplay
  exact ⟨p, h, hp, hh, hring, hsoon, hpunctual hsoon, howed, taken, q, s, hserve, hsamples, hplay,
    hsynth⟩

/-- A note that was handed in late is lost and the release comes twice, so nothing
sounds where the note would if it were carried out when it is owed. -/
theorem late_event_displaces :
    let synth := Synth.tuned ⟨48000, Vector.replicate 128 ⟨262144⟩⟩ (Lfsr.seeded 1)
    let p := start synth (Timeline.ofList [⟨5, .address 0 .noteOff⟩])
    let calls := .next :: .schedule ⟨3, .address 0 (.noteOn 69 100)⟩ :: List.replicate 129 .next
    let h := p.history calls (History.start [⟨5, .address 0 .noteOff⟩])
    h.batches[5]? = some [⟨5, .address 0 .noteOff⟩] ∧
      h.batches[128]? = some [⟨5, .address 0 .noteOff⟩] ∧
      h.owed 128 = [⟨3, .address 0 (.noteOn 69 100)⟩] ∧
      (p.serve calls).toOption.map Prod.fst = some (List.replicate 130 0) ∧
      (synth.playFrom 480 0 ((List.range 130).map fun index =>
        inTimeOrder (h.owed index))).toOption.map Prod.fst =
          some (List.replicate 128 0 ++ [-3200, -3200]) := by
  decide +kernel

end Player

end Chiptune
