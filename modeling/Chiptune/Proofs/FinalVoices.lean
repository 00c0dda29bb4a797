import Chiptune.Proofs.Causality

/-!
# The voices of a rendering

A rendering reports the voices of its player at the end, and a player generates
whole batches. The voices are therefore those of the loop at the end of the last
batch, up to 127 samples behind the last one that was taken (`voices_of_render`),
and all commands before the end of that batch may show in them (`voices_agree`).
They belong to the last sample when the length is a multiple of the batch
(`voices_belong_to_last_batch`); a note behind the end of a shorter rendering is
reported as held (`note_after_end_is_reported`).
-/

set_option autoImplicit false

namespace Chiptune

/-- A voice holds a note. -/
def Voice.held : Voice → Bool
  | .square s => s.held
  | .triangle s => s.held
  | .noise s => s.held

namespace Patch

/-- The timed commands of a patch whose sample is before the index `n`. -/
def eventsBefore (p : Patch) (n : Nat) : List TimedCommand :=
  p.events.filter fun e => (samplesOfMilliseconds e.atMs p.sampleRate).toNat < n

theorem eventsBefore_succ (p : Patch) (i : Nat) : p.eventsBefore (i + 1) = p.eventsUpTo i := by
  apply List.filter_congr
  intro e _
  rw [decide_eq_decide]
  exact Nat.lt_succ_iff

theorem generated_eq (p : Patch) : p.generated = 128 * ((p.length + 127) / 128) := rfl

theorem loop_of_render {p : Patch} {r : Render} (h : p.render = .ok r) :
    ∃ xs l', p.loop.run p.interval p.generated = .ok (xs, l') ∧
      r.samples.toList = xs.take p.length ∧ r.voices = l'.synth.voices := by
  rcases p.render_cases with ⟨xs, l', r', ⟨hrun, -⟩, hrender, hfacts⟩ | ⟨halt, hrender, -⟩
  · obtain rfl : r' = r := Except.ok.inj (hrender.symm.trans h)
    exact ⟨xs, l', hrun, hfacts⟩
  · rw [h] at hrender
    cases hrender

/-- The loop plays the samples of a rendering, goes on to the end of the batch, and
has the reported voices there. -/
theorem voices_of_render {p : Patch} {r : Render} (h : p.render = .ok r) :
    ∃ l ahead l', p.loop.run p.interval p.length = .ok (r.samples.toList, l) ∧
      l.run p.interval (p.generated - p.length) = .ok (ahead, l') ∧
      r.voices = l'.synth.voices := by
  obtain ⟨xs, l', hrun, hsamples, hvoices⟩ := loop_of_render h
  rw [← Nat.add_sub_of_le p.length_le_generated] at hrun
  obtain ⟨taken, l, ahead, htaken, hahead, rfl⟩ := Loop.run_add.1 hrun
  rw [List.take_left' (Loop.run_facts htaken).1] at hsamples
  rw [hsamples]
  exact ⟨l, ahead, l', htaken, hahead, hvoices⟩

/-- Patches with the same commands before the end of the last batch have the same
voices. -/
theorem voices_agree {p q : Patch} {rp rq : Render} (hrate : q.sampleRate = p.sampleRate)
    (hchannels : q.channels = p.channels) (hgenerated : q.generated = p.generated)
    (hevents : q.eventsBefore p.generated = p.eventsBefore p.generated)
    (hp : p.render = .ok rp) (hq : q.render = .ok rq) : rq.voices = rp.voices := by
  obtain ⟨xs, l', hrunp, -, hvoicesp⟩ := loop_of_render hp
  obtain ⟨ys, k', hrunq, -, hvoicesq⟩ := loop_of_render hq
  rw [hgenerated, interval_eq hrate] at hrunq
  rw [hvoicesp, hvoicesq]
  cases hn : p.generated with
  | zero =>
    -- nothing was generated, and both loops start with the same synthesizer
    rw [hn] at hrunp hrunq
    cases hrunp
    cases hrunq
    rw [loop, loop, hrate]
    rfl
  | succ i =>
    rw [hn] at hrunp hrunq hevents
    rw [eventsBefore_succ, eventsBefore_succ] at hevents
    have hstart : p.loop.index + (i + 1) ≤ i + 1 := Nat.le_of_eq (Nat.zero_add _)
    obtain ⟨k₁, hsame, hagree⟩ :=
      (agreeUpTo_loop hrate hchannels hevents).run (i + 1) hstart hrunp
    rw [hsame] at hrunq
    cases hrunq
    rw [hagree.synth_eq]

/-- The voices of a rendering are those of the loop at the end of the last batch: the
loop plays the samples of the rendering and then fewer than 128 more. So the voices
are those after the last sample if the length is a multiple of the batch, and they
do not depend on commands behind the last batch. -/
theorem voices_belong_to_last_batch (p : Patch) (r : Render) (h : p.render = .ok r) :
    (∃ l ahead l', p.loop.run p.interval p.length = .ok (r.samples.toList, l) ∧
      l.run p.interval (128 * ((p.length + 127) / 128) - p.length) = .ok (ahead, l') ∧
      r.voices = l'.synth.voices ∧ ahead.length < 128 ∧
      (128 ∣ p.length → r.voices = l.synth.voices)) ∧
    (∀ (q : Patch) (rq : Render), q.sampleRate = p.sampleRate →
      q.channels = p.channels → (q.length + 127) / 128 = (p.length + 127) / 128 →
      q.eventsBefore (128 * ((p.length + 127) / 128)) =
        p.eventsBefore (128 * ((p.length + 127) / 128)) →
      q.render = .ok rq → rq.voices = r.voices) := by
  constructor
  · obtain ⟨l, ahead, l', htaken, hahead, hvoices⟩ := voices_of_render h
    rw [generated_eq] at hahead
    have hcount := (Loop.run_facts hahead).1
    refine ⟨l, ahead, l', htaken, hahead, hvoices, by omega, ?_⟩
    rintro ⟨batches, hbatches⟩
    -- a length of whole batches leaves nothing to generate ahead
    have hnone : 128 * ((p.length + 127) / 128) - p.length = 0 := by omega
    rw [hnone] at hahead
    cases hahead
    exact hvoices
  · intro q rq hrate hchannels hbatches hevents hq
    have hgenerated : q.generated = p.generated := by
      rw [generated_eq, generated_eq, hbatches]
    exact voices_agree hrate hchannels hgenerated hevents h hq

theorem voices_belong_to_last_batch_for_short_note :
    let p : Patch := ⟨1000, 3, [], [⟨1, .address 0 (.noteOn 69 100)⟩]⟩
    let q : Patch := { p with events := ⟨128, .allNotesOff⟩ :: p.events }
    ∃ rp rq l ahead l', p.render = .ok rp ∧ q.render = .ok rq ∧
      p.loop.run 10 3 = .ok (rp.samples.toList, l) ∧ l.run 10 125 = .ok (ahead, l') ∧
      rp.voices = l'.synth.voices ∧ rq.voices = rp.voices := by
  intro p q
  have hp : p.render.toOption.map (fun r => r.samples.size) = some 3 := by decide +kernel
  have hq : q.render.toOption.map (fun r => r.samples.size) = some 3 := by decide +kernel
  have hinterval : p.interval = 10 := by decide
  have hlength : p.length = 3 := by decide
  obtain ⟨rp, hrp, -⟩ := exists_ok_of_toOption hp
  obtain ⟨rq, hrq, -⟩ := exists_ok_of_toOption hq
  obtain ⟨⟨l, ahead, l', htaken, hahead, hvoices, -⟩, hsame⟩ :=
    voices_belong_to_last_batch p rp hrp
  rw [hinterval, hlength] at htaken hahead
  exact ⟨rp, rq, l, ahead, l', hrp, hrq, htaken, hahead, hvoices,
    hsame q rq rfl rfl rfl (by decide) hrq⟩

/-- The channels whose reported voice holds a note. -/
def heldChannels (voices : List (Channel × Voice)) : List Channel :=
  (voices.filter fun v => v.2.held).map Prod.fst

/-- A note at sample 5 is held in the voices of a rendering of 3 samples. -/
theorem note_after_end_is_reported :
    let p : Patch := ⟨1000, 3, [], [⟨5, .address 0 (.noteOn 69 100)⟩]⟩
    let q : Patch := { p with events := [] }
    p.HasValidRate ∧ p.length = 3 ∧ p.eventsBefore 3 = [] ∧
      ∃ rp rq xs l, p.render = .ok rp ∧ q.render = .ok rq ∧
        p.loop.run p.interval p.length = .ok (xs, l) ∧
        heldChannels rp.voices = [.squareA] ∧ heldChannels l.synth.voices = [] ∧
        rp.voices ≠ l.synth.voices ∧ rp.voices ≠ rq.voices := by
  intro p q
  have hp : p.render.toOption.map (fun r => heldChannels r.voices) = some [.squareA] := by
    decide +kernel
  have hq : q.render.toOption.map (fun r => heldChannels r.voices) = some [] := by
    decide +kernel
  have hl : (p.loop.run p.interval p.length).toOption.map
      (fun r => heldChannels r.2.synth.voices) = some [] := by
    decide +kernel
  obtain ⟨rp, hrp, hheldp⟩ := exists_ok_of_toOption hp
  obtain ⟨rq, hrq, hheldq⟩ := exists_ok_of_toOption hq
  obtain ⟨⟨xs, l⟩, hrun, hheldl⟩ := exists_ok_of_toOption hl
  refine ⟨by decide, by decide, by decide, rp, rq, xs, l, hrp, hrq, hrun, hheldp, hheldl, ?_, ?_⟩
  · intro hsame
    rw [hsame, hheldl] at hheldp
    cases hheldp
  · intro hsame
    rw [hsame, hheldq] at hheldp
    cases hheldp

end Patch

end Chiptune
