import Chiptune.Proofs.RenderFaults

/-!
# Renderings are causal

A sample depends on the events up to its own time and on nothing later. Two loops
that hold the same events up to an index (`Loop.AgreeUpTo`) give the same samples
up to it, and both go on agreeing (`AgreeUpTo.step`, `AgreeUpTo.run`). A rendering
is a first part of what its loop plays, so patches that differ only in later events
or in their length are rendered alike as far as both go (`renderings_are_causal`).

Renderings are generated in whole batches. An event behind the end may therefore
still be carried out, but the samples after it are not taken.
-/

set_option autoImplicit false

namespace Chiptune

variable {ρ : Type}

/-! ## Loops that agree up to an index -/

namespace Loop

/-- The loops are at the same place with the same synthesizer, and the events that
they hold up to the index `i` are the same. -/
structure AgreeUpTo (i : Nat) (l k : Loop ρ) : Prop where
  synth_eq : k.synth = l.synth
  index_eq : k.index = l.index
  waiting_eq : (k.waiting.filter fun e => e.time.toNat ≤ i) =
    l.waiting.filter fun e => e.time.toNat ≤ i

section AgreeUpTo

variable {i : Nat} {l k : Loop ρ}

theorem agreeUpTo_start (synth : Synth ρ) {events events' : List Event}
    (h : (events'.filter fun e => e.time.toNat ≤ i) = events.filter fun e => e.time.toNat ≤ i) :
    AgreeUpTo i (start synth events) (start synth events') where
  synth_eq := rfl
  index_eq := rfl
  waiting_eq := by simp only [start, filter_inTimeOrder, h]

/-- What is due at an index is among the events up to it. -/
theorem AgreeUpTo.due_eq (h : AgreeUpTo i l k) (hi : l.index ≤ i) : k.due = l.due := by
  have hamong (m : List Event) : (m.filter fun e => e.time.toNat ≤ l.index) =
      (m.filter fun e => e.time.toNat ≤ i).filter fun e => e.time.toNat ≤ l.index := by
    rw [List.filter_filter]
    refine List.filter_congr fun e _ => ?_
    rw [← Bool.decide_and, decide_eq_decide]
    omega
  unfold due
  rw [h.index_eq, hamong k.waiting, hamong l.waiting, h.waiting_eq]

theorem AgreeUpTo.later (h : AgreeUpTo i l k) :
    (k.later.filter fun e => e.time.toNat ≤ i) = l.later.filter fun e => e.time.toNat ≤ i := by
  have hswap (m : List Event) :
      ((m.filter fun e => l.index < e.time.toNat).filter fun e => e.time.toNat ≤ i) =
        (m.filter fun e => e.time.toNat ≤ i).filter fun e => l.index < e.time.toNat := by
    rw [List.filter_filter, List.filter_filter]
    exact List.filter_congr fun e _ => Bool.and_comm _ _
  unfold Loop.later
  rw [h.index_eq, hswap, hswap, h.waiting_eq]

variable [BitSource ρ] {interval : Nat}

/-- Up to the index the loops take the same steps. -/
theorem AgreeUpTo.step (h : AgreeUpTo i l k) (hi : l.index ≤ i) {x : Int16} {l' : Loop ρ}
    (hstep : l.step interval = .ok (x, l')) :
    ∃ k', k.step interval = .ok (x, k') ∧ AgreeUpTo i l' k' := by
  simp only [Loop.step, bind_eq_ok, pure, Except.pure, Except.ok.injEq, Prod.exists,
    Prod.mk.injEq] at hstep
  obtain ⟨s₁, happly, y, s₂, hmix, s₃, hmodulate, rfl, rfl⟩ := hstep
  refine ⟨⟨s₃, k.later, k.index + 1⟩, ?_, rfl, congrArg (· + 1) h.index_eq, h.later⟩
  simp only [Loop.step, h.synth_eq, h.index_eq, h.due_eq hi, happly, hmix, hmodulate, bind,
    Except.bind, pure, Except.pure]

theorem AgreeUpTo.run (n : Nat) {l k : Loop ρ} (h : AgreeUpTo i l k) (hi : l.index + n ≤ i + 1)
    {xs : List Int16} {l' : Loop ρ} (hrun : l.run interval n = .ok (xs, l')) :
    ∃ k', k.run interval n = .ok (xs, k') ∧ AgreeUpTo i l' k' := by
  induction n generalizing l k xs with
  | zero =>
    cases hrun
    exact ⟨k, rfl, h⟩
  | succ n ih =>
    obtain ⟨x, l₁, rest, hstep, hrest, rfl⟩ := run_succ_eq_ok.1 hrun
    -- the index grows with every step, so the rest of the run still ends by `i`
    obtain ⟨k₁, hstep', h₁⟩ := h.step (by omega) hstep
    have hindex := step_index hstep
    obtain ⟨k', hrest', h'⟩ := ih h₁ (by omega) hrest
    exact ⟨k', run_succ_eq_ok.2 ⟨x, k₁, rest, hstep', hrest', rfl⟩, h'⟩

end AgreeUpTo

/-- The first samples of a run are a run. -/
theorem run_take [BitSource ρ] {interval m n : Nat} {l l' : Loop ρ} {xs : List Int16}
    (h : l.run interval n = .ok (xs, l')) (hm : m ≤ n) :
    ∃ l₁, l.run interval m = .ok (xs.take m, l₁) := by
  obtain ⟨rest, rfl⟩ := Nat.exists_eq_add_of_le hm
  obtain ⟨ys, l₁, zs, hys, -, rfl⟩ := run_add.1 h
  refine ⟨l₁, ?_⟩
  rw [List.take_left' (run_facts hys).1]
  exact hys

end Loop

/-! ## Renderings -/

theorem toNat_samplesOfMilliseconds (ms : UInt64) (rate : UInt32) :
    (samplesOfMilliseconds ms rate).toNat =
      min (ms.toNat * rate.toNat) (UInt64.size - 1) / 1000 := by
  unfold samplesOfMilliseconds
  rw [Nat.toUInt64_eq, UInt64.toNat_ofNat']
  refine Nat.mod_eq_of_lt (Nat.lt_of_le_of_lt (Nat.div_le_div_right (Nat.min_le_right _ _)) ?_)
  decide

/-- A later time is a later sample, or the same one. -/
theorem samplesOfMilliseconds_mono {a b : UInt64} (h : a ≤ b) (rate : UInt32) :
    (samplesOfMilliseconds a rate).toNat ≤ (samplesOfMilliseconds b rate).toNat := by
  have hproduct := Nat.mul_le_mul_right rate.toNat (UInt64.le_iff_toNat_le.1 h)
  rw [toNat_samplesOfMilliseconds, toNat_samplesOfMilliseconds]
  exact Nat.div_le_div_right (by omega)

namespace Patch

/-- The length of a rendering in samples. -/
def length (p : Patch) : Nat := (p.lengthSamples p.sampleRate).toNat

/-- The timed commands of a patch whose sample is not after the index. -/
def eventsUpTo (p : Patch) (i : Nat) : List TimedCommand :=
  p.events.filter fun e => (samplesOfMilliseconds e.atMs p.sampleRate).toNat ≤ i

theorem length_le_generated (p : Patch) : p.length ≤ p.generated := by
  unfold length generated Player.generatedFor ringCapacity
  omega

/-- A rendering is what the loop plays in its length. -/
theorem run_of_render {p : Patch} {r : Render} (h : p.render = .ok r) :
    ∃ l', p.loop.run p.interval p.length = .ok (r.samples.toList, l') := by
  rcases p.render_cases with ⟨xs, l', r', ⟨hrun, -⟩, hrender, hsamples, -⟩ | ⟨halt, hrender, -⟩
  · obtain rfl := Except.ok.inj (hrender.symm.trans h)
    rw [hsamples]
    exact Loop.run_take hrun p.length_le_generated
  · rw [hrender] at h
    cases h

theorem size_of_render {p : Patch} {r : Render} (h : p.render = .ok r) :
    r.samples.size = p.length := by
  obtain ⟨l', hrun⟩ := run_of_render h
  exact (Loop.run_facts hrun).1

section Alike

variable {p q : Patch}

theorem interval_eq (hrate : q.sampleRate = p.sampleRate) : q.interval = p.interval := by
  have hinterval (p : Patch) : p.interval =
      (max ((Synth.fresh p.sampleRate (Lfsr.seeded Lfsr.defaultSeed)).sampleRate /
        modulationRate) 1).toNat := rfl
  rw [hinterval, hinterval, hrate]

/-- Patches with the same commands up to an index have loops that agree up to it. -/
theorem agreeUpTo_loop {i : Nat} (hrate : q.sampleRate = p.sampleRate)
    (hchannels : q.channels = p.channels) (hevents : q.eventsUpTo i = p.eventsUpTo i) :
    Loop.AgreeUpTo i p.loop q.loop := by
  have hlist (p : Patch) : ((p.eventList p.sampleRate).filter fun e => e.time.toNat ≤ i) =
      ((p.channels.flatMap ChannelSetup.commands).map (Event.mk 0)).filter
        (fun e => e.time.toNat ≤ i) ++
      (p.eventsUpTo i).map fun t => Event.atMilliseconds t.atMs p.sampleRate t.command := by
    simp only [eventList, List.filter_append, List.filter_map]
    rfl
  unfold loop
  rw [hrate]
  apply Loop.agreeUpTo_start
  rw [← hrate, hlist, hrate, hlist, hchannels, hevents]

/-- As far as both go, such patches are rendered alike. -/
theorem take_of_render {i : Nat} {rp rq : Render} (hrate : q.sampleRate = p.sampleRate)
    (hchannels : q.channels = p.channels) (hevents : q.eventsUpTo i = p.eventsUpTo i)
    (hp : p.render = .ok rp) (hq : q.render = .ok rq) {n : Nat} (hn : n ≤ i + 1)
    (hlp : n ≤ p.length) (hlq : n ≤ q.length) :
    rq.samples.toList.take n = rp.samples.toList.take n := by
  obtain ⟨l', hrunp⟩ := run_of_render hp
  obtain ⟨k', hrunq⟩ := run_of_render hq
  obtain ⟨l₁, hfirstp⟩ := Loop.run_take hrunp hlp
  obtain ⟨k₁, hfirstq⟩ := Loop.run_take hrunq hlq
  have hstart : p.loop.index = 0 := rfl
  obtain ⟨k₂, hsame, -⟩ := (agreeUpTo_loop hrate hchannels hevents).run n (by omega) hfirstp
  rw [interval_eq hrate, hsame] at hfirstq
  exact (Prod.mk.inj (Except.ok.inj hfirstq)).1.symm

/-- Up to the last sample of a rendering the commands are those before its end. -/
theorem eventsUpTo_length {i : Nat} (p : Patch) (hi : i < p.length) :
    p.eventsUpTo i = (p.events.filter fun e => e.atMs < p.lengthMs).filter fun e =>
      (samplesOfMilliseconds e.atMs p.sampleRate).toNat ≤ i := by
  rw [List.filter_filter]
  refine List.filter_congr fun e _ => ?_
  rw [← Bool.decide_and, decide_eq_decide]
  refine ⟨fun hle => ⟨hle, ?_⟩, And.left⟩
  -- a command at or after the end has a sample that is not rendered
  by_contra hlate
  have hend := samplesOfMilliseconds_mono (UInt64.not_lt.1 hlate) p.sampleRate
  unfold length lengthSamples at hi
  omega

end Alike

/-- A shorter rendering is there when a longer one is. -/
theorem render_of_longer {p q : Patch} {r : Render} (hrate : q.sampleRate = p.sampleRate)
    (hloop : q.loop = p.loop) (hlength : p.length ≤ q.length) (h : q.render = .ok r) :
    ∃ r', p.render = .ok r' := by
  rcases p.render_cases with ⟨-, -, r', -, hrender, -⟩ | ⟨halt, -, hfault⟩
  · exact ⟨r', hrender⟩
  · rcases q.render_cases with ⟨xs, l', -, ⟨hrun, -⟩, -⟩ | ⟨halt', hrender, -⟩
    · -- the longer one generates all the batches of the shorter one
      have hbatches : p.generated ≤ q.generated := by
        unfold length at hlength
        unfold generated Player.generatedFor
        exact Nat.mul_le_mul_left _ (Nat.div_le_div_right (by omega))
      obtain ⟨l₁, hfirst⟩ := Loop.run_take hrun hbatches
      rw [interval_eq hrate, hloop, hfault] at hfirst
      cases hfirst
    · rw [hrender] at h
      cases h

/-- Patches with the same sample rate and setup, and with the same commands up to an
index, are rendered alike up to it as far as both go. So a greater length only adds
samples at the end, and commands at or after the end are not heard. -/
theorem renderings_are_causal :
    (∀ (p q : Patch) (i : Nat) (rp rq : Render), q.sampleRate = p.sampleRate →
      q.channels = p.channels → q.eventsUpTo i = p.eventsUpTo i →
      p.render = .ok rp → q.render = .ok rq →
      ∀ j, j ≤ i → j < rp.samples.size → j < rq.samples.size →
        rq.samples[j]? = rp.samples[j]?) ∧
    (∀ (p : Patch) (lengthMs : UInt64) (rq : Render), p.lengthMs ≤ lengthMs →
      render { p with lengthMs } = .ok rq →
      ∃ rp, p.render = .ok rp ∧ rp.samples.toList <+: rq.samples.toList) ∧
    (∀ (p : Patch) (events : List TimedCommand) (rp rq : Render),
      (events.filter fun e => e.atMs < p.lengthMs) =
        (p.events.filter fun e => e.atMs < p.lengthMs) →
      p.render = .ok rp → render { p with events } = .ok rq → rq.samples = rp.samples) := by
  refine ⟨?_, ?_, ?_⟩
  · intro p q i rp rq hrate hchannels hevents hp hq j hj hjp hjq
    rw [size_of_render hp] at hjp
    rw [size_of_render hq] at hjq
    have htake := take_of_render hrate hchannels hevents hp hq (Nat.succ_le_succ hj) hjp hjq
    have hsame := congrArg (fun xs => xs[j]?) htake
    simp only [List.getElem?_take_of_succ, Array.getElem?_toList] at hsame
    exact hsame
  · intro p lengthMs rq hlonger hq
    have hlength : p.length ≤ length { p with lengthMs } := samplesOfMilliseconds_mono hlonger _
    obtain ⟨rp, hp⟩ := render_of_longer (p := p) (q := { p with lengthMs }) rfl rfl hlength hq
    refine ⟨rp, hp, ?_⟩
    have htake := take_of_render (p := p) (q := { p with lengthMs }) (i := p.length) rfl rfl rfl
      hp hq (Nat.le_succ _) (Nat.le_refl _) hlength
    rw [List.take_of_length_le (Nat.le_of_eq (size_of_render hp))] at htake
    rw [← htake]
    exact List.take_prefix _ _
  · intro p events rp rq hevents hp hq
    apply Array.toList_inj.1
    have hlengthq : rq.samples.size = p.length :=
      size_of_render (p := { p with events }) hq
    rcases Nat.eq_zero_or_pos p.length with hzero | hpos
    · rw [List.eq_nil_of_length_eq_zero ((size_of_render hp).trans hzero),
        List.eq_nil_of_length_eq_zero (hlengthq.trans hzero)]
    · -- the last sample rendered comes before the end
      have hlast : p.length - 1 < p.length := Nat.sub_lt hpos Nat.one_pos
      have hupTo : eventsUpTo { p with events } (p.length - 1) = p.eventsUpTo (p.length - 1) := by
        rw [eventsUpTo_length p hlast, ← hevents]
        exact eventsUpTo_length { p with events } hlast
      have htake := take_of_render (p := p) (q := { p with events }) rfl rfl hupTo hp hq
        (n := p.length) (by omega) (Nat.le_refl _) (Nat.le_refl _)
      rw [List.take_of_length_le (Nat.le_of_eq (size_of_render hp)),
        List.take_of_length_le (Nat.le_of_eq hlengthq)] at htake
      exact htake

theorem renderings_are_causal_for_late_note :
    let p : Patch := ⟨1000, 3, [⟨0, some 128, none, none⟩], [⟨1, .address 0 (.noteOn 69 100)⟩]⟩
    let q : Patch := { p with events := ⟨2, .address 2 (.noteOn 69 100)⟩ :: p.events }
    ∃ rp rq, p.render = .ok rp ∧ q.render = .ok rq ∧
      rp.samples.toList = [0, -3200, -3200] ∧ rq.samples.toList = [0, -3200, 6422] ∧
      ∀ j ≤ 1, rq.samples[j]? = rp.samples[j]? := by
  intro p q
  have hp : p.render.toOption.map (fun r => r.samples.toList) = some [0, -3200, -3200] := by
    decide +kernel
  have hq : q.render.toOption.map (fun r => r.samples.toList) = some [0, -3200, 6422] := by
    decide +kernel
  cases hrp : p.render with
  | error halt =>
    rw [hrp] at hp
    cases hp
  | ok rp =>
    cases hrq : q.render with
    | error halt =>
      rw [hrq] at hq
      cases hq
    | ok rq =>
      rw [hrp] at hp
      rw [hrq] at hq
      refine ⟨rp, rq, rfl, rfl, Option.some.inj hp, Option.some.inj hq, ?_⟩
      intro j hj
      have hsize : rp.samples.size = 3 := congrArg List.length (Option.some.inj hp)
      have hsize' : rq.samples.size = 3 := congrArg List.length (Option.some.inj hq)
      exact renderings_are_causal.1 p q 1 rp rq rfl rfl (by decide) hrp hrq j hj (by omega)
        (by omega)

end Patch

end Chiptune
