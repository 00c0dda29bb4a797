import Chiptune.Proofs.Playback
import Chiptune.Proofs.RingTraces

/-!
# Restarts

A restart makes every voice silent at a new sample rate and empties the ring. The cells of
the ring keep the samples that were in them, so the state is not that of a new
synthesizer, but no request shows the difference.

A caller makes requests and gets replies (`Synth.replies`); a fault ends them. Two
synthesizers are alike if they differ in their rings only and both rings stand for the same
samples (`Synth.Alike`). Alike synthesizers serve every request with the same fault or the
same reply and stay alike (`Alike.serve`), so they give the same replies to all requests
(`Alike.replies_eq`). A synthesizer after a restart is alike to a new one
(`restarted_replies_as_fresh`).
-/

set_option autoImplicit false

namespace Chiptune

/-! ## Computations that agree -/

section Agree

variable {α β : Type}

/-- Both computations end in the same fault, or in results that are related. -/
inductive Agree (R : α → α → Prop) : Except Fault α → Except Fault α → Prop
  | fault (f : Fault) : Agree R (.error f) (.error f)
  | result {a b : α} : R a b → Agree R (.ok a) (.ok b)

theorem Agree.refl {R : α → α → Prop} (h : ∀ a, R a a) (x : Except Fault α) : Agree R x x := by
  cases x with
  | error f => exact .fault f
  | ok a => exact .result (h a)

theorem Agree.bind {R : α → α → Prop} {S : β → β → Prop} {x y : Except Fault α}
    {k l : α → Except Fault β} (h : Agree R x y) (hk : ∀ a b, R a b → Agree S (k a) (l b)) :
    Agree S (x >>= k) (y >>= l) := by
  cases h with
  | fault f => exact .fault f
  | result hab => exact hk _ _ hab

/-- The same value beside states that are related. -/
def SameBeside (R : β → β → Prop) (p q : α × β) : Prop := p.1 = q.1 ∧ R p.2 q.2

end Agree

/-! ## Rings with the same samples -/

namespace SampleRing

variable {capacity : Nat}

/-- Both rings stand for the same samples, whatever their other cells hold. -/
def Paired (r r' : SampleRing capacity) : Prop :=
  ∃ queue, Fifo.Stands r queue ∧ Fifo.Stands r' queue

section Paired

variable {r r' : SampleRing capacity}

theorem Paired.length_eq (h : r.Paired r') : r.length = r'.length := by
  obtain ⟨queue, hr, hr'⟩ := h
  rw [hr.length_eq, hr'.length_eq]

theorem Paired.push (h : r.Paired r') (x : Int16) : Agree Paired (r.push x) (r'.push x) := by
  obtain ⟨queue, hr, hr'⟩ := h
  -- both rings are full with their common queue, or neither is
  rcases hr.push x with ⟨hpush, hfull⟩ | ⟨r₁, hpush, hroom, hr₁⟩
  · rcases hr'.push x with ⟨hpush', -⟩ | ⟨r₁', -, hroom, -⟩
    · rw [hpush, hpush']
      exact .fault .ringFull
    · exact absurd hfull hroom
  · rcases hr'.push x with ⟨-, hfull⟩ | ⟨r₁', hpush', -, hr₁'⟩
    · exact absurd hfull hroom
    · rw [hpush, hpush']
      exact .result ⟨queue ++ [x], hr₁, hr₁'⟩

theorem Paired.pop (h : r.Paired r') : Agree (SameBeside Paired) r.pop r'.pop := by
  obtain ⟨queue, hr, hr'⟩ := h
  -- the common queue is empty, or its head is the sample on both sides
  rcases hr.pop with ⟨hpop, rfl⟩ | ⟨x, r₁, queue₁, hpop, rfl, hr₁⟩
  · rcases hr'.pop with ⟨hpop', -⟩ | ⟨x', r₁', queue₁', -, hcons, -⟩
    · rw [hpop, hpop']
      exact .fault .ringEmpty
    · cases hcons
  · rcases hr'.pop with ⟨-, hnil⟩ | ⟨x', r₁', queue₁', hpop', hcons, hr₁'⟩
    · cases hnil
    · cases hcons
      rw [hpop, hpop']
      exact .result ⟨rfl, queue₁, hr₁, hr₁'⟩

end Paired

end SampleRing

namespace Synth

variable {ρ : Type}

/-! ## Requests and replies -/

/-- What a caller asks of a synthesizer. -/
inductive Request where
  | command (c : Command)
  | modulate
  | mix
  | tick
  | pop
  | restart (rate : UInt32)
  | voice (c : Channel)
  | sampleRate
  | length
  | isEmpty
  | isFull
  deriving DecidableEq, Repr

/-- What a caller gets. -/
inductive Reply where
  | done
  | sample (x : Int16)
  | voice (v : Voice)
  | rate (r : UInt32)
  | length (n : Nat)
  | truth (b : Bool)
  deriving DecidableEq, Repr

/-- Serves a request. -/
def serve [BitSource ρ] (s : Synth ρ) : Request → Except Fault (Reply × Synth ρ)
  | .command c => return (.done, ← s.apply c)
  | .modulate => return (.done, ← s.modulate)
  | .mix => do
      let (x, s) ← s.mix
      return (.sample x, s)
  | .tick => return (.done, ← s.tick)
  | .pop => do
      let (x, s) ← s.pop
      return (.sample x, s)
  | .restart rate => .ok (.done, s.restart rate)
  | .voice c => .ok (.voice (s.voice c), s)
  | .sampleRate => .ok (.rate s.sampleRate, s)
  | .length => .ok (.length s.ring.length, s)
  | .isEmpty => .ok (.truth s.ring.isEmpty, s)
  | .isFull => .ok (.truth s.ring.isFull, s)

/-- The replies to a list of requests. A fault ends them. -/
def replies [BitSource ρ] : List Request → Synth ρ → List (Except Fault Reply)
  | [], _ => []
  | q :: requests, s =>
      match s.serve q with
      | .error f => [.error f]
      | .ok (reply, s') => .ok reply :: replies requests s'

/-! ## Synthesizers that are alike -/

/-- The synthesizers differ in their rings only, and these hold the same samples. -/
inductive Alike : Synth ρ → Synth ρ → Prop
  | rings (s : Synth ρ) {r r' : SampleRing ringCapacity} :
      r.Paired r' → Alike (s.withRing r) (s.withRing r')

/-- The cells of a cleared ring do not matter. -/
theorem alike_restart (s : Synth ρ) (rate : UInt32) :
    Alike (s.restart rate) (fresh rate s.source) := by
  have hpos : 0 < ringCapacity := by decide
  exact .rings (fresh rate s.source) ⟨[], Fifo.stands_clear hpos s.ring, Fifo.stands_empty hpos⟩

section Alike

variable {s s' : Synth ρ}

theorem Alike.paired (h : Alike s s') : s.ring.Paired s'.ring := by
  cases h with
  | rings u hpaired => exact hpaired

theorem Alike.restart (h : Alike s s') (rate : UInt32) :
    Alike (s.restart rate) (s'.restart rate) := by
  cases h with
  | rings u hpaired =>
    have hpos : 0 < ringCapacity := by decide
    exact .rings (fresh rate u.source) ⟨[], Fifo.stands_clear hpos _, Fifo.stands_clear hpos _⟩

theorem Alike.apply (h : Alike s s') (c : Command) : Agree Alike (s.apply c) (s'.apply c) := by
  cases h with
  | rings u hpaired =>
    rw [apply_eq, apply_eq]
    exact .result (.rings (u.applied c) hpaired)

theorem Alike.modulate (h : Alike s s') : Agree Alike s.modulate s'.modulate := by
  cases h with
  | rings u hpaired =>
    rw [modulate_withRing, modulate_withRing]
    cases u.modulate with
    | error f => exact .fault f
    | ok u' => exact .result (.rings u' hpaired)

theorem Alike.pop (h : Alike s s') : Agree (SameBeside Alike) s.pop s'.pop := by
  cases h with
  | rings u hpaired =>
    apply hpaired.pop.bind
    rintro ⟨x, r⟩ ⟨x', r'⟩ ⟨hx, hpaired'⟩
    exact .result ⟨hx, .rings u hpaired'⟩

variable [BitSource ρ]

theorem Alike.mix (h : Alike s s') : Agree (SameBeside Alike) s.mix s'.mix := by
  cases h with
  | rings u hpaired =>
    rw [mix_withRing, mix_withRing]
    cases u.mix with
    | error f => exact .fault f
    | ok p => exact .result ⟨rfl, .rings p.2 hpaired⟩

theorem Alike.tick (h : Alike s s') : Agree Alike s.tick s'.tick := by
  apply h.mix.bind
  -- both sides push the sample that they have mixed
  rintro ⟨x, u⟩ ⟨x', u'⟩ ⟨hx, halike⟩
  cases halike with
  | rings u hpaired =>
    cases hx
    apply (hpaired.push x).bind
    intro r r' hpaired'
    exact .result (.rings u hpaired')

/-- Every request has the same fault or the same reply, and the synthesizers stay alike. -/
theorem Alike.serve (h : Alike s s') (q : Request) :
    Agree (SameBeside Alike) (s.serve q) (s'.serve q) := by
  cases q with
  | command c => exact (h.apply c).bind fun _ _ h' => .result ⟨rfl, h'⟩
  | modulate => exact h.modulate.bind fun _ _ h' => .result ⟨rfl, h'⟩
  | mix => exact h.mix.bind fun _ _ h' => .result ⟨congrArg Reply.sample h'.1, h'.2⟩
  | tick => exact h.tick.bind fun _ _ h' => .result ⟨rfl, h'⟩
  | pop => exact h.pop.bind fun _ _ h' => .result ⟨congrArg Reply.sample h'.1, h'.2⟩
  | restart rate => exact .result ⟨rfl, h.restart rate⟩
  | voice c =>
    refine .result ⟨?_, h⟩
    cases h
    rfl
  | sampleRate =>
    refine .result ⟨?_, h⟩
    cases h
    rfl
  | length => exact .result ⟨congrArg Reply.length h.paired.length_eq, h⟩
  | isEmpty =>
    refine .result ⟨?_, h⟩
    simp only [SampleRing.isEmpty, h.paired.length_eq]
  | isFull =>
    refine .result ⟨?_, h⟩
    simp only [SampleRing.isFull, h.paired.length_eq]

/-- Alike synthesizers cannot be told apart. -/
theorem Alike.replies_eq (h : Alike s s') (requests : List Request) :
    replies requests s = replies requests s' := by
  induction requests generalizing s s' with
  | nil => rfl
  | cons q requests ih =>
    have hserve := h.serve q
    simp only [replies]
    generalize s.serve q = x at hserve ⊢
    generalize s'.serve q = y at hserve ⊢
    cases hserve with
    | fault f => rfl
    | @result p p' hp =>
      obtain ⟨reply, u⟩ := p
      obtain ⟨reply', u'⟩ := p'
      obtain ⟨hreply, halike⟩ := hp
      cases hreply
      simp only [ih halike]

end Alike

/-- A synthesizer after a restart gives the same replies, faults included, to every list of
requests as a new synthesizer at the same rate with the same bit source. -/
theorem restarted_replies_as_fresh [BitSource ρ] (s : Synth ρ) (rate : UInt32)
    (requests : List Request) :
    replies requests (s.restart rate) = replies requests (fresh rate s.source) :=
  (alike_restart s rate).replies_eq requests

end Synth

end Chiptune
