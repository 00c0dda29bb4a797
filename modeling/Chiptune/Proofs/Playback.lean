import Chiptune.Player
import Chiptune.Proofs.Faults
import Chiptune.Proofs.RingQueue
import Chiptune.Proofs.TimeOrder

/-!
# Playback without a buffer

The loop plays without a ring: before each sample it carries out the waiting
events that are due, and after every `interval` samples it gives a modulation
tick. A player generates ahead in batches of the ring's capacity, counts its
modulation ticks and hands its events out through a cursor. The relation
`Follows` ties a player to the loop that is as far as the player has
generated; one generated sample keeps it (`generate_cases`), and so do a batch
(`generateMany_cases`) and any number of samples taken (`take_cases`). The
samples that a player gives are therefore those of the loop
(`take_follows_loop`).

A player may also halt. The three lemmas carry that case along: the fault is
then arithmetic, and the loop fails within the same samples (`Loop.Fails`).
-/

set_option autoImplicit false

namespace Chiptune

variable {ρ : Type}

/-- The unbuffered loop between two samples: the synthesizer, the events not yet
carried out, and the index of the next sample. -/
structure Loop (ρ : Type) where
  synth : Synth ρ
  waiting : List Event
  index : Nat

namespace Loop

/-- The loop before its first sample. -/
def start (synth : Synth ρ) (events : List Event) : Loop ρ := ⟨synth, inTimeOrder events, 0⟩

/-- The events to be carried out before the next sample. -/
def due (l : Loop ρ) : List Event := l.waiting.filter fun e => e.time.toNat ≤ l.index

/-- The events that stay for later samples. -/
def later (l : Loop ρ) : List Event := l.waiting.filter fun e => l.index < e.time.toNat

/-- One sample: the due events, the mix, and a modulation tick when the number
of samples is a multiple of the interval. -/
def step [BitSource ρ] (interval : Nat) (l : Loop ρ) : Except Fault (Int16 × Loop ρ) := do
  let synth ← l.synth.applyAll (l.due.map Event.command)
  let (sample, synth) ← synth.mix
  let synth ← (if (l.index + 1) % interval = 0 then synth.modulate else .ok synth)
  return (sample, ⟨synth, l.later, l.index + 1⟩)

/-- The next `n` samples. -/
def run [BitSource ρ] (interval : Nat) : Nat → Loop ρ → Except Fault (List Int16 × Loop ρ)
  | 0, l => .ok ([], l)
  | n + 1, l => do
      let (sample, l) ← l.step interval
      let (samples, l) ← l.run interval n
      return (sample :: samples, l)

/-- The loop comes through `n` samples, and their count fits the clock of a
player. -/
def Reaches [BitSource ρ] (interval : Nat) (l : Loop ρ) (n : Nat) (samples : List Int16)
    (l' : Loop ρ) : Prop :=
  l.run interval n = .ok (samples, l') ∧ l.index + n < UInt64.size

/-- The loop faults within `n` samples, or their count does not fit the clock of a
player. -/
def Fails [BitSource ρ] (interval : Nat) (l : Loop ρ) (n : Nat) (f : Fault) : Prop :=
  l.run interval n = .error f ∨ (f = .addOverflow ∧ UInt64.size ≤ l.index + n)

section Run

variable [BitSource ρ] {interval : Nat}

theorem step_of_mix_error {l : Loop ρ} {f : Fault}
    (h : (l.synth.appliedAll (l.due.map Event.command)).mix = .error f) :
    l.step interval = .error f := by
  unfold step
  rw [Synth.applyAll_eq]
  exact bind_eq_error.2 (Or.inr ⟨_, rfl, bind_eq_error.2 (Or.inl h)⟩)

theorem step_of_mix_ok {l : Loop ρ} {x : Int16} {s : Synth ρ}
    (h : (l.synth.appliedAll (l.due.map Event.command)).mix = .ok (x, s)) :
    l.step interval = (if (l.index + 1) % interval = 0 then s.modulate else .ok s).map fun s' =>
      (x, ⟨s', l.later, l.index + 1⟩) := by
  unfold step
  rw [Synth.applyAll_eq]
  simp only [bind, Except.bind, h]
  cases (if (l.index + 1) % interval = 0 then s.modulate else .ok s) <;> rfl

theorem run_succ_eq_ok {n : Nat} {l l' : Loop ρ} {samples : List Int16} :
    l.run interval (n + 1) = .ok (samples, l') ↔
      ∃ x l₁ xs, l.step interval = .ok (x, l₁) ∧ l₁.run interval n = .ok (xs, l') ∧
        samples = x :: xs := by
  simp only [run, bind_eq_ok, pure, Except.pure, Except.ok.injEq, Prod.exists, Prod.mk.injEq]
  constructor
  · rintro ⟨x, l₁, hstep, xs, l₂, hrun, rfl, rfl⟩
    exact ⟨x, l₁, xs, hstep, hrun, rfl⟩
  · rintro ⟨x, l₁, xs, hstep, hrun, rfl⟩
    exact ⟨x, l₁, hstep, xs, l', hrun, rfl, rfl⟩

theorem run_succ_eq_error {n : Nat} {l : Loop ρ} {f : Fault} :
    l.run interval (n + 1) = .error f ↔ l.step interval = .error f ∨
      ∃ x l₁, l.step interval = .ok (x, l₁) ∧ l₁.run interval n = .error f := by
  simp only [run, bind_eq_error, pure, Except.pure, reduceCtorEq, and_false, exists_false,
    or_false, Prod.exists]

theorem step_index {l l' : Loop ρ} {x : Int16} (h : l.step interval = .ok (x, l')) :
    l'.index = l.index + 1 := by
  simp only [step, bind_eq_ok, pure, Except.pure, Except.ok.injEq, Prod.exists, Prod.mk.injEq] at h
  obtain ⟨s₁, -, x', s₂, -, s₃, -, -, rfl⟩ := h
  rfl

theorem run_facts {n : Nat} {l l' : Loop ρ} {samples : List Int16}
    (h : l.run interval n = .ok (samples, l')) :
    samples.length = n ∧ l'.index = l.index + n := by
  induction n generalizing l samples with
  | zero =>
    cases h
    exact ⟨rfl, rfl⟩
  | succ n ih =>
    obtain ⟨x, l₁, xs, hstep, hrun, rfl⟩ := run_succ_eq_ok.1 h
    obtain ⟨hlength, hindex⟩ := ih hrun
    have hone := step_index hstep
    exact ⟨by rw [List.length_cons, hlength], by omega⟩

/-- A run in two parts. -/
theorem run_add {m n : Nat} {l l' : Loop ρ} {samples : List Int16} :
    l.run interval (m + n) = .ok (samples, l') ↔
      ∃ xs l₁ ys, l.run interval m = .ok (xs, l₁) ∧ l₁.run interval n = .ok (ys, l') ∧
        samples = xs ++ ys := by
  induction m generalizing l samples with
  | zero =>
    rw [Nat.zero_add]
    constructor
    · intro h
      exact ⟨[], l, samples, rfl, h, rfl⟩
    · rintro ⟨xs, l₁, ys, hnil, hrun, rfl⟩
      cases hnil
      exact hrun
  | succ m ih =>
    rw [Nat.add_right_comm]
    constructor
    · intro h
      obtain ⟨x, l₁, rest, hstep, hrest, rfl⟩ := run_succ_eq_ok.1 h
      obtain ⟨xs, l₂, ys, hm, hn, rfl⟩ := ih.1 hrest
      exact ⟨x :: xs, l₂, ys, run_succ_eq_ok.2 ⟨x, l₁, xs, hstep, hm, rfl⟩, hn, rfl⟩
    · rintro ⟨xs, l₂, ys, hm, hn, rfl⟩
      obtain ⟨x, l₁, rest, hstep, hrest, rfl⟩ := run_succ_eq_ok.1 hm
      exact run_succ_eq_ok.2 ⟨x, l₁, rest ++ ys, hstep, ih.2 ⟨rest, l₂, ys, hrest, hn, rfl⟩, rfl⟩

theorem run_one {l l' : Loop ρ} {samples : List Int16} :
    l.run interval 1 = .ok (samples, l') ↔ ∃ x, l.step interval = .ok (x, l') ∧ samples = [x] := by
  rw [run_succ_eq_ok]
  constructor
  · rintro ⟨x, l₁, xs, hstep, hnil, rfl⟩
    cases hnil
    exact ⟨x, hstep, rfl⟩
  · rintro ⟨x, hstep, rfl⟩
    exact ⟨x, l', [], hstep, rfl, rfl⟩

theorem reaches_add {m n : Nat} {l l' : Loop ρ} {samples : List Int16} :
    l.Reaches interval (m + n) samples l' ↔
      ∃ xs l₁ ys, l.Reaches interval m xs l₁ ∧ l₁.Reaches interval n ys l' ∧
        samples = xs ++ ys := by
  unfold Reaches
  rw [run_add]
  constructor
  · rintro ⟨⟨xs, l₁, ys, hm, hn, rfl⟩, hclock⟩
    have hindex := (run_facts hm).2
    exact ⟨xs, l₁, ys, ⟨hm, by omega⟩, ⟨hn, by omega⟩, rfl⟩
  · rintro ⟨xs, l₁, ys, ⟨hm, -⟩, ⟨hn, hclock⟩, rfl⟩
    have hindex := (run_facts hm).2
    exact ⟨⟨xs, l₁, ys, hm, hn, rfl⟩, by omega⟩

theorem fails_one {l : Loop ρ} {f : Fault} (h : l.step interval = .error f) :
    l.Fails interval 1 f :=
  Or.inl (run_succ_eq_error.2 (Or.inl h))

/-- A loop that fails does so within more samples as well. -/
theorem Fails.add {m : Nat} {l : Loop ρ} {f : Fault} (h : l.Fails interval m f) (n : Nat) :
    l.Fails interval (m + n) f := by
  rcases h with h | ⟨hf, hsize⟩
  · refine Or.inl ?_
    induction m generalizing l with
    | zero => cases h
    | succ m ih =>
      rw [Nat.add_right_comm]
      rcases run_succ_eq_error.1 h with hstep | ⟨x, l₁, hstep, hrest⟩
      · exact run_succ_eq_error.2 (Or.inl hstep)
      · exact run_succ_eq_error.2 (Or.inr ⟨x, l₁, hstep, ih hrest⟩)
  · exact Or.inr ⟨hf, by omega⟩

/-- A loop that fails after some samples fails. -/
theorem Reaches.fails {m n : Nat} {l l₁ : Loop ρ} {samples : List Int16} {f : Fault}
    (h : l.Reaches interval m samples l₁) (hf : l₁.Fails interval n f) :
    l.Fails interval (m + n) f := by
  obtain ⟨hrun, -⟩ := h
  have hindex := (run_facts hrun).2
  rcases hf with hf | ⟨hf, hsize⟩
  · refine Or.inl ?_
    induction m generalizing l samples with
    | zero =>
      cases hrun
      rw [Nat.zero_add]
      exact hf
    | succ m ih =>
      obtain ⟨x, l₂, xs, hstep, hrest, rfl⟩ := run_succ_eq_ok.1 hrun
      rw [Nat.add_right_comm]
      exact run_succ_eq_error.2 (Or.inr ⟨x, l₂, hstep, ih hrest (run_facts hrest).2⟩)
  · exact Or.inr ⟨hf, by omega⟩

theorem Fails.not_reaches {n : Nat} {l l' : Loop ρ} {f : Fault} {samples : List Int16}
    (h : l.Fails interval n f) : ¬ l.Reaches interval n samples l' := by
  rintro ⟨hrun, hsize⟩
  rcases h with h | ⟨-, hsize'⟩
  · rw [hrun] at h
    cases h
  · omega

end Run

end Loop

/-! ## The synthesizer apart from its ring -/

namespace Synth

/-- The synthesizer with another ring. -/
def withRing (s : Synth ρ) (ring : SampleRing ringCapacity) : Synth ρ := { s with ring }

theorem appliedAll_withRing (cs : List Command) (s : Synth ρ) (ring : SampleRing ringCapacity) :
    (s.withRing ring).appliedAll cs = (s.appliedAll cs).withRing ring := by
  induction cs generalizing s with
  | nil => rfl
  | cons c cs ih => exact ih (s.applied c)

theorem modulate_withRing (s : Synth ρ) (ring : SampleRing ringCapacity) :
    (s.withRing ring).modulate = s.modulate.map fun s' => s'.withRing ring := by
  show (s.squareA.modulateVibrato >>= _) = _
  unfold modulate
  cases s.squareA.modulateVibrato with
  | error f => rfl
  | ok squareA =>
    show (s.squareB.modulateVibrato >>= _) = Except.map _ (s.squareB.modulateVibrato >>= _)
    cases s.squareB.modulateVibrato with
    | error f => rfl
    | ok squareB =>
      show (squareA.modulateEnvelope >>= _) = Except.map _ (squareA.modulateEnvelope >>= _)
      cases squareA.modulateEnvelope with
      | error f => rfl
      | ok squareA =>
        show (squareB.modulateEnvelope >>= _) = Except.map _ (squareB.modulateEnvelope >>= _)
        cases squareB.modulateEnvelope with
        | error f => rfl
        | ok squareB =>
          show (s.noise.modulateEnvelope >>= _) = Except.map _ (s.noise.modulateEnvelope >>= _)
          cases s.noise.modulateEnvelope <;> rfl

theorem mix_withRing [BitSource ρ] (s : Synth ρ) (ring : SampleRing ringCapacity) :
    (s.withRing ring).mix = s.mix.map fun r => (r.1, r.2.withRing ring) := by
  show (s.squareA.next >>= _) = _
  unfold mix
  cases s.squareA.next with
  | error f => rfl
  | ok a =>
    show (s.squareB.next >>= _) = Except.map _ (s.squareB.next >>= _)
    cases s.squareB.next with
    | error f => rfl
    | ok b =>
      show (s.triangle.next >>= _) = Except.map _ (s.triangle.next >>= _)
      cases s.triangle.next with
      | error f => rfl
      | ok c =>
        show (s.noise.next s.source >>= _) = Except.map _ (s.noise.next s.source >>= _)
        cases s.noise.next s.source <;> rfl

theorem tick_of_mix_ok [BitSource ρ] {s s' : Synth ρ} {ring ring' : SampleRing ringCapacity}
    {sample : Int16} (hmix : s.mix = .ok (sample, s')) (hpush : ring.push sample = .ok ring') :
    (s.withRing ring).tick = .ok (s'.withRing ring') := by
  unfold tick
  rw [mix_withRing, hmix]
  show (ring.push sample >>= _) = _
  rw [hpush]
  rfl

theorem tick_of_mix_error [BitSource ρ] {s : Synth ρ} (ring : SampleRing ringCapacity) {f : Fault}
    (hmix : s.mix = .error f) : (s.withRing ring).tick = .error f := by
  unfold tick
  rw [mix_withRing, hmix]
  rfl

end Synth

/-! ## One generated sample -/

namespace Player

/-- The events that are carried out before the next generated sample. -/
def due (p : Player ρ) : List Event :=
  (p.timeline.drain p.generated).between p.timeline.cursor (p.timeline.drain p.generated).cursor

/-- Generating a sample, without what a halt keeps. -/
def attempt [BitSource ρ] (p : Player ρ) : Except Fault (Player ρ) := do
  let synth ← p.synth.applyAll (p.due.map Event.command)
  let synth ← synth.tick
  clock { p with synth, timeline := p.timeline.drain p.generated }

theorem generate_of_attempt_ok [BitSource ρ] {p q : Player ρ} (h : p.attempt = .ok q) :
    p.generate = .ok q := by
  show Except.mapError _ p.attempt = _
  rw [h]
  rfl

theorem generate_of_attempt_error [BitSource ρ] {p : Player ρ} {f : Fault}
    (h : p.attempt = .error f) : ∃ halt, p.generate = .error halt ∧ halt.fault = f := by
  refine ⟨⟨f, { p with timeline := p.timeline.drain p.generated }⟩, ?_, rfl⟩
  show Except.mapError _ p.attempt = _
  rw [h]
  rfl

theorem succ_mod_eq (index interval : Nat) :
    (index + 1) % interval = (index % interval + 1) % interval := by
  rw [Nat.mod_add_mod]

/-- The clock gives a modulation tick exactly at the multiples of the interval. -/
theorem clock_eq {p : Player ρ} {index : Nat} (hpos : 0 < p.interval.toNat)
    (hsince : p.sinceModulation.toNat = index % p.interval.toNat)
    (hgenerated : p.generated.toNat = index) (hfit : index + 1 < UInt64.size) :
    ∃ since : UInt32, since.toNat = (index + 1) % p.interval.toNat ∧
      p.clock = (if (index + 1) % p.interval.toNat = 0 then p.synth.modulate
          else .ok p.synth).map fun synth =>
        { p with synth, sinceModulation := since, generated := p.generated + 1 } := by
  have hlt : p.sinceModulation.toNat < p.interval.toNat := by
    rw [hsince]
    exact Nat.mod_lt _ hpos
  have hword := p.interval.toNat_lt
  have hone : (1 : UInt32).toNat = 1 := rfl
  have hadd64 : Checked.add64 p.generated 1 = .ok (p.generated + 1) := by
    unfold Checked.add64
    rw [if_pos]
    rw [hgenerated]
    exact hfit
  have hadd32 : Checked.add32 p.sinceModulation 1 = .ok (p.sinceModulation + 1) := by
    refine Checked.add32_eq_ok ?_
    rw [hone]
    show _ < 2 ^ 32
    omega
  have hsum : (p.sinceModulation + 1).toNat = p.sinceModulation.toNat + 1 := by
    rw [UInt32.toNat_add, hone]
    exact Nat.mod_eq_of_lt (by omega)
  -- the count since the last tick is below the interval, so it comes to the
  -- interval exactly where the number of samples is a multiple of it
  by_cases hdue : p.interval ≤ p.sinceModulation + 1
  · have heq : p.sinceModulation.toNat + 1 = p.interval.toNat := by
      have hle := UInt32.le_iff_toNat_le.1 hdue
      omega
    have hzero : (index + 1) % p.interval.toNat = 0 := by
      rw [succ_mod_eq, ← hsince, heq, Nat.mod_self]
    refine ⟨0, hzero.symm, ?_⟩
    rw [if_pos hzero]
    unfold clock
    rw [hadd64, hadd32]
    simp only [bind, Except.bind, if_pos hdue]
    cases p.synth.modulate <;> rfl
  · have hless : p.sinceModulation.toNat + 1 < p.interval.toNat := by
      have hlt' := UInt32.lt_iff_toNat_lt.1 (UInt32.not_le.1 hdue)
      omega
    have hmod : (index + 1) % p.interval.toNat = p.sinceModulation.toNat + 1 := by
      rw [succ_mod_eq, ← hsince, Nat.mod_eq_of_lt hless]
    refine ⟨p.sinceModulation + 1, by rw [hsum, hmod], ?_⟩
    rw [if_neg (by omega)]
    unfold clock
    rw [hadd64, hadd32]
    simp only [bind, Except.bind, if_neg hdue]
    rfl

theorem clock_overflow {p : Player ρ} (h : ¬ p.generated.toNat + 1 < UInt64.size) :
    p.clock = .error .addOverflow := by
  have hadd : Checked.add64 p.generated 1 = .error .addOverflow := by
    unfold Checked.add64
    rw [if_neg]
    exact h
  unfold clock
  rw [hadd]
  rfl

/-- The player has generated what the loop has played. -/
structure Follows (interval : UInt32) (p : Player ρ) (l : Loop ρ) : Prop where
  synth_eq : p.synth = l.synth.withRing p.synth.ring
  sound : p.synth.ring.Sound
  ordered : TimeOrdered p.timeline.events.toList
  waiting_eq : p.timeline.waiting = l.waiting
  interval_eq : p.interval = interval
  since_eq : p.sinceModulation.toNat = l.index % interval.toNat
  generated_eq : p.generated.toNat = l.index

section Follows

variable {interval : UInt32} {p : Player ρ} {l : Loop ρ}

theorem Follows.time_le_iff (h : Follows interval p l) (e : Event) :
    e.time ≤ p.generated ↔ e.time.toNat ≤ l.index := by
  rw [UInt64.le_iff_toNat_le, h.generated_eq]

theorem Follows.due_eq (h : Follows interval p l) : p.due = l.due := by
  have hordered := Timeline.waiting_ordered h.ordered
  rw [due, Timeline.between_drain, takeWhile_eq_filter hordered, h.waiting_eq]
  exact List.filter_congr fun e _ => by rw [decide_eq_decide]; exact h.time_le_iff e

theorem Follows.later_eq (h : Follows interval p l) :
    (p.timeline.drain p.generated).waiting = l.later := by
  have hordered := Timeline.waiting_ordered h.ordered
  rw [Timeline.waiting_drain, dropWhile_eq_filter hordered, h.waiting_eq]
  refine List.filter_congr fun e _ => ?_
  rw [decide_eq_decide, h.time_le_iff e]
  omega

theorem Follows.applyAll_eq (h : Follows interval p l) (cs : List Command) :
    p.synth.applyAll cs = .ok ((l.synth.appliedAll cs).withRing p.synth.ring) := by
  rw [Synth.applyAll_eq, ← Synth.appliedAll_withRing, ← h.synth_eq]

/-- The clock does for a player what the count of samples does for the loop. -/
theorem Follows.clock_eq (h : Follows interval p l) (hpos : 0 < interval.toNat)
    (hfit : l.index + 1 < UInt64.size) (s : Synth ρ) (ring : SampleRing ringCapacity)
    (timeline : Timeline) :
    ∃ since : UInt32, since.toNat = (l.index + 1) % interval.toNat ∧
      clock { p with synth := s.withRing ring, timeline } =
        (if (l.index + 1) % interval.toNat = 0 then s.modulate else .ok s).map fun s' =>
          { synth := s'.withRing ring, timeline, interval,
            sinceModulation := since, generated := p.generated + 1 } := by
  have hinterval := h.interval_eq
  subst hinterval
  obtain ⟨since, hsince, hclock⟩ := Player.clock_eq
    (p := { p with synth := s.withRing ring, timeline }) hpos h.since_eq h.generated_eq hfit
  refine ⟨since, hsince, hclock.trans ?_⟩
  split
  · rw [Synth.modulate_withRing]
    cases s.modulate <;> rfl
  · rfl

/-- Another ring, sound as well, changes nothing that the loop can see. -/
theorem Follows.withRing (h : Follows interval p l) {ring : SampleRing ringCapacity}
    (hring : ring.Sound) : Follows interval { p with synth := p.synth.withRing ring } l where
  synth_eq := by
    show p.synth.withRing ring = l.synth.withRing ring
    rw [h.synth_eq]
    rfl
  sound := hring
  ordered := h.ordered
  waiting_eq := h.waiting_eq
  interval_eq := h.interval_eq
  since_eq := h.since_eq
  generated_eq := h.generated_eq

variable [BitSource ρ]

/-- A voice fails in both. -/
theorem Follows.attempt_of_mix_error (h : Follows interval p l) {f : Fault}
    (hmix : (l.synth.appliedAll (l.due.map Event.command)).mix = .error f) :
    p.attempt = .error f := by
  unfold attempt
  rw [h.due_eq, h.applyAll_eq]
  have htick := Synth.tick_of_mix_error p.synth.ring hmix
  exact bind_eq_error.2 (Or.inr ⟨_, rfl, bind_eq_error.2 (Or.inl htick)⟩)

/-- Once a sample is in the ring, only the clock remains. -/
theorem Follows.attempt_of_mix_ok (h : Follows interval p l) {x : Int16} {s : Synth ρ}
    (hmix : (l.synth.appliedAll (l.due.map Event.command)).mix = .ok (x, s))
    {ring : SampleRing ringCapacity} (hpush : p.synth.ring.push x = .ok ring) :
    p.attempt = clock { p with
      synth := s.withRing ring, timeline := p.timeline.drain p.generated } := by
  unfold attempt
  rw [h.due_eq, h.applyAll_eq]
  simp only [bind, Except.bind, Synth.tick_of_mix_ok hmix hpush]

/-- One generated sample: the loop plays the sample that enters the ring, or the
player halts. -/
theorem generate_cases (hpos : 0 < interval.toNat) (h : Follows interval p l)
    (hroom : p.synth.ring.length < ringCapacity) :
    (∃ xs l' p', l.Reaches interval.toNat 1 xs l' ∧ p.generate = .ok p' ∧
      Follows interval p' l' ∧ p'.synth.ring.contents = p.synth.ring.contents ++ xs) ∨
    (∃ halt, p.generate = .error halt ∧ halt.fault.isArithmetic = true ∧
      l.Fails interval.toNat 1 halt.fault) := by
  cases hmix : (l.synth.appliedAll (l.due.map Event.command)).mix with
  | error f =>
    obtain ⟨halt, hgenerate, rfl⟩ := generate_of_attempt_error (h.attempt_of_mix_error hmix)
    exact Or.inr ⟨halt, hgenerate, arithmetic_mix _ _ hmix,
      Loop.fails_one (Loop.step_of_mix_error hmix)⟩
  | ok r =>
    -- both have the sample; what is left of the step is the clock
    obtain ⟨x, s⟩ := r
    obtain ⟨ring, hpush, hsound, hcontents⟩ := SampleRing.push_contents h.sound hroom x
    have hattempt := h.attempt_of_mix_ok hmix hpush
    have hstep : l.step interval.toNat = _ := Loop.step_of_mix_ok hmix
    by_cases hfit : l.index + 1 < UInt64.size
    · obtain ⟨since, hsince, hclock⟩ :=
        h.clock_eq hpos hfit s ring (p.timeline.drain p.generated)
      cases hs : (if (l.index + 1) % interval.toNat = 0 then s.modulate else .ok s) with
      | error f =>
        -- the modulation tick fails in both
        rw [hs] at hstep hclock
        have hfault : f.isArithmetic = true := by
          by_cases hdue : (l.index + 1) % interval.toNat = 0
          · rw [if_pos hdue] at hs
            exact arithmetic_modulate _ _ hs
          · rw [if_neg hdue] at hs
            cases hs
        obtain ⟨halt, hgenerate, rfl⟩ := generate_of_attempt_error (hattempt.trans hclock)
        exact Or.inr ⟨halt, hgenerate, hfault, Loop.fails_one hstep⟩
      | ok s' =>
        rw [hs] at hstep hclock
        refine Or.inl ⟨[x], _, _, ⟨Loop.run_one.2 ⟨x, hstep, rfl⟩, hfit⟩,
          generate_of_attempt_ok (hattempt.trans hclock), ?_, hcontents⟩
        refine ⟨rfl, hsound, h.ordered, h.later_eq, rfl, hsince, ?_⟩
        show (p.generated + 1).toNat = l.index + 1
        rw [UInt64.toNat_add, h.generated_eq]
        exact Nat.mod_eq_of_lt hfit
    · -- the loop has no clock that could overflow
      have hclock := clock_overflow (p := { p with
        synth := s.withRing ring, timeline := p.timeline.drain p.generated })
        (by rw [h.generated_eq]; exact hfit)
      obtain ⟨halt, hgenerate, hfault⟩ := generate_of_attempt_error (hattempt.trans hclock)
      refine Or.inr ⟨halt, hgenerate, by rw [hfault]; rfl, Or.inr ⟨hfault, ?_⟩⟩
      exact Nat.not_lt.1 hfit

/-- A batch of generated samples. -/
theorem generateMany_cases (hpos : 0 < interval.toNat) (n : Nat) {p : Player ρ} {l : Loop ρ}
    (h : Follows interval p l) (hroom : p.synth.ring.length + n ≤ ringCapacity) :
    (∃ xs l' p', l.Reaches interval.toNat n xs l' ∧ p.generateMany n = .ok p' ∧
      Follows interval p' l' ∧ p'.synth.ring.contents = p.synth.ring.contents ++ xs) ∨
    (∃ halt, p.generateMany n = .error halt ∧ halt.fault.isArithmetic = true ∧
      l.Fails interval.toNat n halt.fault) := by
  induction n generalizing p l with
  | zero =>
    refine Or.inl ⟨[], l, p, ⟨rfl, ?_⟩, rfl, h, (List.append_nil _).symm⟩
    rw [Nat.add_zero, ← h.generated_eq]
    exact p.generated.toNat_lt
  | succ n ih =>
    rcases generate_cases hpos h (by omega) with
      ⟨xs, l₁, p₁, hone, hgenerate, h₁, hcontents⟩ | ⟨halt, hgenerate, hfault, hfails⟩
    · have hlength : p₁.synth.ring.length = p.synth.ring.length + 1 := by
        have hxs := (Loop.run_facts hone.1).1
        rw [← SampleRing.contents_length, hcontents, List.length_append,
          SampleRing.contents_length, hxs]
      have hunfold : p.generateMany (n + 1) = p₁.generateMany n := by
        show (p.generate >>= _) = _
        rw [hgenerate]
        rfl
      rw [hunfold, Nat.add_comm n 1]
      rcases ih h₁ (by omega) with
        ⟨ys, l', p', hmany, hgenerateMany, h', hcontents'⟩ | ⟨halt, hgenerateMany, hfault, hfails⟩
      · refine Or.inl ⟨xs ++ ys, l', p', Loop.reaches_add.2 ⟨xs, l₁, ys, hone, hmany, rfl⟩,
          hgenerateMany, h', ?_⟩
        rw [hcontents', hcontents, List.append_assoc]
      · exact Or.inr ⟨halt, hgenerateMany, hfault, hone.fails hfails⟩
    · have hunfold : p.generateMany (n + 1) = .error halt := by
        show (p.generate >>= _) = _
        rw [hgenerate]
        rfl
      rw [hunfold, Nat.add_comm n 1]
      exact Or.inr ⟨halt, rfl, hfault, hfails.add n⟩

/-! ## Samples taken out of the ring -/

theorem next_of_nonempty (h : Follows interval p l) (hne : p.synth.ring.length ≠ 0) :
    ∃ x p', p.next = .ok (x, p') ∧ Follows interval p' l ∧ p'.timeline = p.timeline ∧
      p.synth.ring.contents = x :: p'.synth.ring.contents := by
  obtain ⟨x, ring, hpop, hring, hcontents⟩ := SampleRing.pop_contents h.sound hne
  have hsynth : p.synth.pop = .ok (x, p.synth.withRing ring) := by
    unfold Synth.pop
    rw [hpop]
    rfl
  have hempty : ¬ p.synth.ring.isEmpty = true := mt (SampleRing.isEmpty_iff _).1 hne
  refine ⟨x, { p with synth := p.synth.withRing ring }, ?_, h.withRing hring, rfl, hcontents⟩
  unfold next
  rw [if_neg hempty]
  simp only [pure, Except.pure, bind, Except.bind, hsynth]

theorem next_of_empty (hempty : p.synth.ring.isEmpty = true) {q : Player ρ} (hfill : p.fill = .ok q)
    (hne : q.synth.ring.length ≠ 0) : p.next = q.next := by
  have hheld : ¬ q.synth.ring.isEmpty = true := mt (SampleRing.isEmpty_iff _).1 hne
  unfold next
  rw [if_pos hempty, if_neg hheld, hfill]
  rfl

theorem next_of_fill_error (hempty : p.synth.ring.isEmpty = true) {halt : Halt ρ}
    (hfill : p.fill = .error halt) : p.next = .error halt := by
  unfold next
  rw [if_pos hempty, hfill]
  rfl

/-- The samples that are generated while `n` are taken out of a ring that holds
`held`: whole batches. -/
def generatedFor (n held : Nat) : Nat := ringCapacity * ((n - held + 127) / ringCapacity)

theorem generatedFor_succ_succ (n held : Nat) :
    generatedFor (n + 1) (held + 1) = generatedFor n held := by
  unfold generatedFor
  rw [Nat.add_sub_add_right]

theorem generatedFor_succ_zero (n : Nat) :
    generatedFor (n + 1) 0 = ringCapacity + generatedFor n 127 := by
  unfold generatedFor ringCapacity
  omega

theorem take_succ (n : Nat) (acc : Array Int16) (p : Player ρ) :
    p.take (n + 1) acc = p.next >>= fun r => r.2.take n (acc.push r.1) := rfl

/-- A ring that holds a sample gives it without generating. -/
theorem take_succ_of_held {held : Nat} (h : Follows interval p l)
    (hheld : p.synth.ring.length = held + 1) (n : Nat) (acc : Array Int16) :
    ∃ x p', p.take (n + 1) acc = p'.take n (acc.push x) ∧ Follows interval p' l ∧
      p'.synth.ring.length = held ∧ p.synth.ring.contents = x :: p'.synth.ring.contents := by
  obtain ⟨x, p', hnext, h', -, hcontents⟩ := next_of_nonempty h (by omega)
  have hlength := congrArg List.length hcontents
  rw [List.length_cons, SampleRing.contents_length, SampleRing.contents_length] at hlength
  refine ⟨x, p', ?_, h', by omega, hcontents⟩
  rw [take_succ, hnext]
  rfl

/-- Samples taken: the loop plays what was held in the ring and what was
generated for them, or the player halts. -/
theorem take_cases (hpos : 0 < interval.toNat) (n : Nat) (acc : Array Int16) {p : Player ρ}
    {l : Loop ρ} (h : Follows interval p l) :
    (∃ xs l' p' out, l.Reaches interval.toNat (generatedFor n p.synth.ring.length) xs l' ∧
      p.take n acc = .ok (out, p') ∧ Follows interval p' l' ∧
      acc.toList ++ (p.synth.ring.contents ++ xs) = out.toList ++ p'.synth.ring.contents ∧
      out.size = acc.size + n) ∨
    (∃ halt, p.take n acc = .error halt ∧ halt.fault.isArithmetic = true ∧
      l.Fails interval.toNat (generatedFor n p.synth.ring.length) halt.fault) := by
  induction n generalizing acc p l with
  | zero =>
    have hzero : generatedFor 0 p.synth.ring.length = 0 := by
      unfold generatedFor ringCapacity
      omega
    rw [hzero]
    refine Or.inl ⟨[], l, p, acc, ⟨rfl, ?_⟩, rfl, h, by rw [List.append_nil], rfl⟩
    rw [Nat.add_zero, ← h.generated_eq]
    exact p.generated.toNat_lt
  | succ n ih =>
    -- the induction hypothesis, for a player that holds a sample to give first
    have taken {q : Player ρ} {k : Loop ρ} (hq : Follows interval q k) {held : Nat}
        (hheld : q.synth.ring.length = held + 1) :
        (∃ xs l' p' out, k.Reaches interval.toNat (generatedFor n held) xs l' ∧
          q.take (n + 1) acc = .ok (out, p') ∧ Follows interval p' l' ∧
          acc.toList ++ (q.synth.ring.contents ++ xs) = out.toList ++ p'.synth.ring.contents ∧
          out.size = acc.size + (n + 1)) ∨
        (∃ halt, q.take (n + 1) acc = .error halt ∧ halt.fault.isArithmetic = true ∧
          k.Fails interval.toNat (generatedFor n held) halt.fault) := by
      obtain ⟨x, q', htake, hq', hheld', hcontents⟩ := take_succ_of_held hq hheld n acc
      rw [htake, ← hheld', hcontents]
      rcases ih (acc.push x) hq' with
        ⟨xs, l', p', out, hreaches, hout, hp', hsplit, hsize⟩ | ⟨halt, hhalt, hfault, hfails⟩
      · refine Or.inl ⟨xs, l', p', out, hreaches, hout, hp', ?_, ?_⟩
        · rw [← hsplit, Array.toList_push, List.append_assoc]
          rfl
        · rw [hsize, Array.size_push]
          omega
      · exact Or.inr ⟨halt, hhalt, hfault, hfails⟩
    rcases Nat.eq_zero_or_pos p.synth.ring.length with hzero | hheld
    · -- an empty ring is filled first, so the loop plays a whole batch
      have hempty : p.synth.ring.isEmpty = true := (SampleRing.isEmpty_iff _).2 hzero
      have hfill : p.fill = p.generateMany ringCapacity := by
        unfold fill room
        rw [hzero]
        rfl
      rw [hzero, generatedFor_succ_zero]
      rcases generateMany_cases hpos ringCapacity h (by omega) with
        ⟨xs, l₁, q, hbatch, hmany, hq, hcontents⟩ | ⟨halt, hmany, hfault, hfails⟩
      · have hlength : q.synth.ring.length = 127 + 1 := by
          rw [← SampleRing.contents_length, hcontents, List.length_append,
            SampleRing.contents_length, hzero, (Loop.run_facts hbatch.1).1]
          rfl
        have htake : p.take (n + 1) acc = q.take (n + 1) acc := by
          rw [take_succ, next_of_empty hempty (hfill.trans hmany) (by omega), take_succ]
        rw [htake]
        rcases taken hq hlength with
          ⟨ys, l', p', out, hreaches, hout, hp', hsplit, hsize⟩ | ⟨halt, hhalt, hfault, hfails⟩
        · refine Or.inl ⟨xs ++ ys, l', p', out,
            Loop.reaches_add.2 ⟨xs, l₁, ys, hbatch, hreaches, rfl⟩, hout, hp', ?_, hsize⟩
          rw [← hsplit, hcontents, List.append_assoc]
        · exact Or.inr ⟨halt, hhalt, hfault, hbatch.fails hfails⟩
      · refine Or.inr ⟨halt, ?_, hfault, hfails.add _⟩
        rw [take_succ, next_of_fill_error hempty (hfill.trans hmany)]
        rfl
    · obtain ⟨held, hheld⟩ : ∃ held, p.synth.ring.length = held + 1 :=
        ⟨p.synth.ring.length - 1, by omega⟩
      rw [hheld, generatedFor_succ_succ]
      exact taken h hheld

end Follows

theorem max_one_eq {interval : UInt32} (hpos : 1 ≤ interval) : max interval 1 = interval := by
  rw [UInt32.max_def]
  split
  · rename_i hle
    exact UInt32.le_antisymm hpos hle
  · rfl

theorem toNat_max_one_pos (interval : UInt32) : 0 < (max interval 1).toNat := by
  rw [UInt32.max_def]
  split
  · exact Nat.one_pos
  · rename_i hlt
    exact Nat.lt_of_le_of_lt (Nat.zero_le _) (UInt32.lt_iff_toNat_lt.1 (UInt32.not_le.1 hlt))

theorem follows_start (synth : Synth ρ) (hring : synth.ring.Built) (events : List Event)
    (interval : UInt32) :
    Follows (max interval 1) ((start synth (Timeline.ofList events)).withInterval interval)
      (Loop.start synth events) where
  synth_eq := rfl
  sound := hring.sound (by decide)
  ordered := by
    show TimeOrdered (Timeline.ofList events).events.toList
    rw [Timeline.toList_ofList]
    exact timeOrdered_inTimeOrder events
  waiting_eq := Timeline.waiting_ofList events
  interval_eq := rfl
  since_eq := (Nat.zero_mod _).symm
  generated_eq := rfl

/-- The samples that a player gives are those of the loop. The player then has
generated whole batches and holds what it has not given; the only way to halt is
an arithmetic fault, and it is taken exactly when the loop does not come through
the batches or their count does not fit the clock. -/
theorem take_follows_loop [BitSource ρ] (synth : Synth ρ) (hring : synth.ring.Built)
    (hempty : synth.ring.isEmpty = true) (events : List Event) (interval : UInt32)
    (hinterval : 1 ≤ interval) (n : Nat) :
    let p := (start synth (Timeline.ofList events)).withInterval interval
    let l := Loop.start synth events
    let total := 128 * ((n + 127) / 128)
    (∀ out p', p.take n #[] = .ok (out, p') →
      (∃ l', l.run interval.toNat n = .ok (out.toList, l')) ∧
      p'.generated.toNat = total ∧ p'.synth.ring.length = total - n) ∧
    (∀ halt, p.take n #[] = .error halt → halt.fault.isArithmetic = true) ∧
    ((∃ out p', p.take n #[] = .ok (out, p')) ↔
      total < UInt64.size ∧ ∃ samples l', l.run interval.toNat total = .ok (samples, l')) := by
  intro p l total
  have hpos : 0 < interval.toNat := UInt32.le_iff_toNat_le.1 hinterval
  have hfollows : Follows interval p l := by
    have hstart := follows_start synth hring events interval
    rwa [max_one_eq hinterval] at hstart
  have hheld : p.synth.ring.length = 0 := (SampleRing.isEmpty_iff _).1 hempty
  have hnil : p.synth.ring.contents = [] := by
    rw [← List.length_eq_zero_iff, SampleRing.contents_length, hheld]
  have htotal : generatedFor n p.synth.ring.length = total := by
    rw [hheld]
    rfl
  rcases take_cases hpos n #[] hfollows with
    ⟨xs, l', p', out, ⟨hrun, hfit⟩, htake, hp', hsplit, hsize⟩ | ⟨halt, htake, hfault, hfails⟩
  · rw [htotal] at hrun hfit
    have hfit' : total < UInt64.size := by
      rw [show l.index = 0 from rfl, Nat.zero_add] at hfit
      exact hfit
    rw [htake]
    refine ⟨?_, fun halt h => (by cases h), fun _ => ⟨hfit', xs, l', hrun⟩, fun _ => ⟨_, _, rfl⟩⟩
    intro out' q h
    cases h
    obtain ⟨hlength, hindex⟩ := Loop.run_facts hrun
    -- the samples given are a first part of those played
    have hxs : xs = out.toList ++ p'.synth.ring.contents := by
      rw [← hsplit, hnil]
      rfl
    have hout : out.toList.length = n := by
      rw [Array.length_toList, hsize]
      exact Nat.zero_add n
    have hsum : out.toList.length + p'.synth.ring.length = total := by
      rw [← hlength, hxs, List.length_append, SampleRing.contents_length]
    refine ⟨?_, ?_, ?_⟩
    · have hparts : total = n + (total - n) := by omega
      rw [hparts] at hrun
      obtain ⟨ys, l₁, zs, hys, -, happend⟩ := Loop.run_add.1 hrun
      have hlen : ys.length = out.toList.length := by
        rw [(Loop.run_facts hys).1, hout]
      obtain ⟨rfl, -⟩ := List.append_inj (happend.symm.trans hxs) hlen
      exact ⟨l₁, hys⟩
    · rw [hp'.generated_eq, hindex]
      exact Nat.zero_add total
    · omega
  · -- a loop that fails within the batches does not come through them
    rw [htotal] at hfails
    rw [htake]
    refine ⟨fun out' q h => (by cases h), ?_, ?_, ?_⟩
    · intro halt' h
      cases h
      exact hfault
    · rintro ⟨out', q, h⟩
      cases h
    · rintro ⟨hfit, samples, l', hrun⟩
      refine absurd ⟨hrun, ?_⟩ hfails.not_reaches
      rw [show l.index = 0 from rfl, Nat.zero_add]
      exact hfit

theorem take_follows_loop_for_seven :
    let synth := Synth.tuned ⟨48000, Vector.replicate 128 ⟨262144⟩⟩ (Lfsr.seeded 1)
    let events : List Event := [⟨2, .address 0 (.noteOn 69 100)⟩, ⟨0, .address 1 .envelopeOn⟩,
      ⟨2, .address 0 (.setDuty 32)⟩]
    synth.ring.isEmpty = true ∧ ∃ out p' l',
      ((start synth (Timeline.ofList events)).withInterval 3).take 7 #[] = .ok (out, p') ∧
      out.toList = [0, 0, -3200, 3200, 3200, 3200, -3200] ∧
      (Loop.start synth events).run 3 7 = .ok (out.toList, l') ∧
      p'.generated.toNat = 128 ∧ p'.synth.ring.length = 121 := by
  intro synth events
  have hout : (((start synth (Timeline.ofList events)).withInterval 3).take 7 #[]).toOption.map
      (fun r => r.1.toList) = some [0, 0, -3200, 3200, 3200, 3200, -3200] := by
    decide +kernel
  cases htake : ((start synth (Timeline.ofList events)).withInterval 3).take 7 #[] with
  | error halt =>
    rw [htake] at hout
    cases hout
  | ok r =>
    obtain ⟨out, p'⟩ := r
    rw [htake] at hout
    have hlist : out.toList = [0, 0, -3200, 3200, 3200, 3200, -3200] := Option.some.inj hout
    obtain ⟨⟨l', hrun⟩, hgenerated, hheld⟩ :=
      (take_follows_loop synth .empty rfl events 3 (by decide) 7).1 out p' htake
    exact ⟨rfl, out, p', l', rfl, hlist, hrun, hgenerated, hheld⟩

end Player

end Chiptune
