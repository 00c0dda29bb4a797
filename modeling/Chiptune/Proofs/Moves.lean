import Chiptune.Proofs.Commands
import Chiptune.Proofs.Playback

/-!
# Runs of a synthesizer

A run is a list of moves: commands, modulation ticks, samples, and the traffic
of the ring. A caller looks at the ring first, so a sample is ticked only into a
ring with room and popped only from one that holds a sample.

A run faults at its first move that does (`run_eq_error`), and the loop that
plays a list of events is such a run (`Loop.run_score`). A move that gives a sample
mixes one (`move_of_samples`); any other is a command, a modulation tick, or changes
nothing but the ring (`move_of_not_samples`).
-/

set_option autoImplicit false

namespace Chiptune

/-- What is done with a synthesizer. -/
inductive Move where
  | command (c : Command)
  | modulate
  | mix
  | tick
  | pop
  deriving DecidableEq, Repr

namespace Synth

variable {ρ : Type} [BitSource ρ]

/-- The synthesizer after a move. A tick waits for room in the ring and a pop for
a sample. -/
def move (s : Synth ρ) : Move → Except Fault (Synth ρ)
  | .command c => s.apply c
  | .modulate => s.modulate
  | .mix => return (← s.mix).2
  | .tick => if s.ring.isFull then .ok s else s.tick
  | .pop => if s.ring.isEmpty then .ok s else return (← s.pop).2

/-- The synthesizer after a list of moves. -/
def run : List Move → Synth ρ → Except Fault (Synth ρ)
  | [], s => .ok s
  | m :: moves, s => do run moves (← s.move m)

theorem run_cons_eq_ok {m : Move} {moves : List Move} {s s' : Synth ρ} :
    s.run (m :: moves) = .ok s' ↔ ∃ s₁, s.move m = .ok s₁ ∧ s₁.run moves = .ok s' :=
  bind_eq_ok

theorem run_append (first second : List Move) (s : Synth ρ) :
    s.run (first ++ second) = s.run first >>= run second := by
  induction first generalizing s with
  | nil => rfl
  | cons m first ih =>
    show (s.move m >>= fun s₁ => s₁.run (first ++ second)) = (s.move m >>= run first) >>= run second
    cases s.move m with
    | error f => rfl
    | ok s₁ => exact ih s₁

/-- A run faults with the first move that faults. -/
theorem run_eq_error {moves : List Move} {s : Synth ρ} {f : Fault} :
    s.run moves = .error f ↔ ∃ first m rest s', moves = first ++ m :: rest ∧
      s.run first = .ok s' ∧ s'.move m = .error f := by
  constructor
  · intro h
    induction moves generalizing s with
    | nil => cases h
    | cons m moves ih =>
      rcases bind_eq_error.1 h with hmove | ⟨s₁, hmove, hrest⟩
      · exact ⟨[], m, moves, s, rfl, rfl, hmove⟩
      · obtain ⟨first, m', rest, s', rfl, hfirst, hfault⟩ := ih hrest
        exact ⟨m :: first, m', rest, s', rfl, run_cons_eq_ok.2 ⟨s₁, hmove, hfirst⟩, hfault⟩
  · rintro ⟨first, m, rest, s', rfl, hfirst, hfault⟩
    rw [run_append, hfirst]
    show s'.run (m :: rest) = _
    exact bind_eq_error.2 (Or.inl hfault)

/-- What every move of a run keeps, the run keeps. -/
theorem run_keeps_of_mem {P : Synth ρ → Prop} (moves : List Move) {s s' : Synth ρ}
    (hmove : ∀ (s s' : Synth ρ), ∀ m ∈ moves, P s → s.move m = .ok s' → P s') (hs : P s)
    (h : s.run moves = .ok s') : P s' := by
  induction moves generalizing s with
  | nil =>
    cases h
    exact hs
  | cons m moves ih =>
    obtain ⟨s₁, hm, hrest⟩ := run_cons_eq_ok.1 h
    have hs₁ := hmove s s₁ m List.mem_cons_self hs hm
    exact ih (fun u u' m' hm' => hmove u u' m' (List.mem_cons_of_mem m hm')) hs₁ hrest

/-- What every move keeps, a run keeps. -/
theorem run_keeps {P : Synth ρ → Prop}
    (hmove : ∀ (s s' : Synth ρ) (m : Move), P s → s.move m = .ok s' → P s')
    {moves : List Move} {s s' : Synth ρ} (hs : P s) (h : s.run moves = .ok s') : P s' :=
  run_keeps_of_mem moves (fun s s' m _ => hmove s s' m) hs h

theorem run_commands (cs : List Command) (s : Synth ρ) :
    s.run (cs.map Move.command) = s.applyAll cs := by
  induction cs generalizing s with
  | nil => rfl
  | cons c cs ih =>
    show (s.apply c >>= run (cs.map Move.command)) = (s.apply c >>= fun s₁ => s₁.applyAll cs)
    cases s.apply c with
    | error f => rfl
    | ok s₁ => exact ih s₁

end Synth

/-! ## Moves that give a sample -/

namespace Synth

variable {ρ : Type} [BitSource ρ]

/-- The move gives a sample. -/
def Samples (s : Synth ρ) : Move → Prop
  | .mix => True
  | .tick => s.ring.isFull = false
  | .command _ | .modulate | .pop => False

instance (s : Synth ρ) (m : Move) : Decidable (s.Samples m) :=
  match m with
  | .mix => inferInstanceAs (Decidable True)
  | .tick => inferInstanceAs (Decidable (s.ring.isFull = false))
  | .command _ | .modulate | .pop => inferInstanceAs (Decidable False)

theorem move_of_samples {s s' : Synth ρ} {m : Move} (hm : s.Samples m) (h : s.move m = .ok s') :
    ∃ x s₁, s.mix = .ok (x, s₁) ∧ ∃ ring, s' = s₁.withRing ring := by
  cases m with
  | command c => exact absurd hm id
  | modulate => exact absurd hm id
  | pop => exact absurd hm id
  | mix =>
    obtain ⟨⟨x, s₁⟩, hmix, h⟩ := bind_eq_ok.1 h
    cases h
    exact ⟨x, s₁, hmix, s₁.ring, rfl⟩
  | tick =>
    have hfull : ¬ s.ring.isFull = true := Bool.eq_false_iff.1 hm
    have htick : s.tick = .ok s' := (if_neg hfull).symm.trans h
    obtain ⟨⟨x, s₁⟩, hmix, h⟩ := bind_eq_ok.1 htick
    obtain ⟨ring, -, h⟩ := bind_eq_ok.1 h
    cases h
    exact ⟨x, s₁, hmix, ring, rfl⟩

theorem move_of_not_samples {s s' : Synth ρ} {m : Move} (hm : ¬ s.Samples m)
    (h : s.move m = .ok s') :
    (∃ c, m = .command c ∧ s' = s.applied c) ∨ (m = .modulate ∧ s.modulate = .ok s') ∨
      ∃ ring, s' = s.withRing ring := by
  cases m with
  | command c =>
    refine Or.inl ⟨c, rfl, ?_⟩
    exact Except.ok.inj (h.symm.trans (apply_eq s c))
  | modulate => exact Or.inr (Or.inl ⟨rfl, h⟩)
  | mix => exact absurd trivial hm
  | tick =>
    have hfull : s.ring.isFull = true := Bool.not_eq_false _ ▸ hm
    have hsame := (if_pos hfull).symm.trans h
    cases hsame
    exact Or.inr (Or.inr ⟨s.ring, rfl⟩)
  | pop =>
    by_cases hempty : s.ring.isEmpty = true
    · have hsame := (if_pos hempty).symm.trans h
      cases hsame
      exact Or.inr (Or.inr ⟨s.ring, rfl⟩)
    · have hpop := (if_neg hempty).symm.trans h
      obtain ⟨⟨x, s₁⟩, hpop, hok⟩ := bind_eq_ok.1 hpop
      obtain ⟨⟨y, ring'⟩, -, hrest⟩ := bind_eq_ok.1 hpop
      obtain ⟨-, rfl⟩ := Prod.mk.inj (Except.ok.inj hrest)
      exact Or.inr (Or.inr ⟨ring', (Except.ok.inj hok).symm⟩)

end Synth

/-! ## The run of a list of events -/

/-- The moves for the sample with an index: the commands of that time, the
sample, and a modulation tick when one is due. -/
def sampleMoves (interval : Nat) (events : List Event) (index : Nat) : List Move :=
  (events.filter fun e => e.time.toNat = index).map (fun e => Move.command e.command) ++
    Move.mix :: if (index + 1) % interval = 0 then [Move.modulate] else []

/-- The moves for the first `n` samples. -/
def score (interval : Nat) (events : List Event) (n : Nat) : List Move :=
  (List.range n).flatMap (sampleMoves interval events)

namespace Loop

variable {ρ : Type} [BitSource ρ]

theorem step_eq (interval : Nat) (l : Loop ρ) (events : List Event)
    (hdue : l.due = events.filter fun e => e.time.toNat = l.index) :
    (l.step interval).map (fun r => r.2.synth) =
      l.synth.run (sampleMoves interval events l.index) := by
  have hcommands : (events.filter fun e => e.time.toNat = l.index).map
      (fun e => Move.command e.command) = (l.due.map Event.command).map Move.command := by
    rw [← hdue, List.map_map]
    rfl
  unfold step sampleMoves
  rw [hcommands, Synth.run_append, Synth.run_commands]
  cases l.synth.applyAll (l.due.map Event.command) with
  | error f => rfl
  | ok s₁ =>
    show Except.map _ (s₁.mix >>= _) = (s₁.mix >>= _) >>= _
    cases s₁.mix with
    | error f => rfl
    | ok r =>
      obtain ⟨x, s₂⟩ := r
      show Except.map _ ((if (l.index + 1) % interval = 0 then s₂.modulate else .ok s₂) >>= _) = _
      split
      · show _ = s₂.modulate >>= _
        cases s₂.modulate <;> rfl
      · rfl

theorem step_waiting {interval : Nat} {l l' : Loop ρ} {x : Int16}
    (h : l.step interval = .ok (x, l')) : l'.waiting = l.later := by
  unfold step at h
  obtain ⟨s₁, -, h⟩ := bind_eq_ok.1 h
  obtain ⟨r, -, h⟩ := bind_eq_ok.1 h
  obtain ⟨s₃, -, h⟩ := bind_eq_ok.1 h
  cases h
  rfl

/-- The loop holds the events from its index on. -/
def HoldsFrom (l : Loop ρ) (events : List Event) : Prop :=
  l.waiting = (inTimeOrder events).filter fun e => l.index ≤ e.time.toNat

omit [BitSource ρ] in
theorem holdsFrom_start (synth : Synth ρ) (events : List Event) :
    (start synth events).HoldsFrom events := by
  refine (List.filter_eq_self.2 fun e _ => ?_).symm
  exact decide_eq_true (Nat.zero_le _)

omit [BitSource ρ] in
/-- No event is left over from an earlier index, so those due have the time of
the next sample. -/
theorem HoldsFrom.due_eq {l : Loop ρ} {events : List Event} (h : l.HoldsFrom events) :
    l.due = events.filter fun e => e.time.toNat = l.index := by
  unfold due
  rw [h, List.filter_filter, ← filter_time_inTimeOrder]
  refine List.filter_congr fun e _ => ?_
  rw [← Bool.decide_and, decide_eq_decide]
  omega

theorem HoldsFrom.step {interval : Nat} {l l' : Loop ρ} {events : List Event} {x : Int16}
    (h : l.HoldsFrom events) (hstep : l.step interval = .ok (x, l')) : l'.HoldsFrom events := by
  unfold HoldsFrom
  rw [step_waiting hstep, step_index hstep, later, h, List.filter_filter]
  refine List.filter_congr fun e _ => ?_
  rw [← Bool.decide_and, decide_eq_decide]
  omega

theorem HoldsFrom.run_eq {interval : Nat} (n : Nat) {l : Loop ρ} {events : List Event}
    (h : l.HoldsFrom events) :
    (l.run interval n).map (fun r => r.2.synth) =
      l.synth.run ((List.range' l.index n).flatMap (sampleMoves interval events)) := by
  induction n generalizing l with
  | zero => rfl
  | succ n ih =>
    have hone := step_eq interval l events h.due_eq
    rw [List.range'_succ, List.flatMap_cons, Synth.run_append, ← hone]
    show Except.map _ (l.step interval >>= _) = _
    cases hstep : l.step interval with
    | error f => rfl
    | ok r =>
      obtain ⟨x, l₁⟩ := r
      have hrest := ih (h.step hstep)
      rw [step_index hstep] at hrest
      show Except.map _ (l₁.run interval n >>= _) = l₁.synth.run _
      rw [← hrest]
      cases l₁.run interval n <;> rfl

/-- The loop plays its events as a run of the synthesizer. -/
theorem run_score (interval : Nat) (events : List Event) (synth : Synth ρ) (n : Nat) :
    ((start synth events).run interval n).map (fun r => r.2.synth) =
      synth.run (score interval events n) := by
  rw [(holdsFrom_start synth events).run_eq, score, List.range_eq_range']
  rfl

end Loop

end Chiptune
