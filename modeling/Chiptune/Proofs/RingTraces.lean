import Chiptune.Proofs.RingQueue

/-!
# What a ring shows to its caller

A caller pushes, pops and clears, and asks for the length and whether the ring is
empty or full. `Fifo` is this interface, `ring` is its implementation in cells with
two cursors, and `bounded` is the one by a list: append at the back, take from the
front. A trace lists what is seen after each call; a fault ends it.

A ring stands for the list of its contents (`Stands`). Each call keeps that and gives
the same result on both sides (`call_agrees`), so both have the same traces
(`trace_agrees`), whatever the calls are. A ring with at least one cell is therefore a
bounded queue, and its faults are those of the queue (`ring_is_bounded_queue`).
-/

set_option autoImplicit false

namespace Chiptune

/-- A call that changes a queue of samples. -/
inductive FifoCall where
  | push (sample : Int16)
  | pop
  | clear
  deriving DecidableEq, Repr

/-- What a caller sees after a call: the sample that it got, if any, and the answers to
the three questions. -/
structure FifoView where
  sample : Option Int16
  length : Nat
  isEmpty : Bool
  isFull : Bool
  deriving DecidableEq, Repr

/-- The interface of a queue of samples with states in `σ`. -/
structure Fifo (σ : Type) where
  push : σ → Int16 → Except Fault σ
  pop : σ → Except Fault (Int16 × σ)
  clear : σ → σ
  length : σ → Nat
  isEmpty : σ → Bool
  isFull : σ → Bool

namespace Fifo

variable {σ : Type} {capacity : Nat}

/-- A ring of cells. -/
def ring (capacity : Nat) : Fifo (SampleRing capacity) where
  push := SampleRing.push
  pop := SampleRing.pop
  clear := SampleRing.clear
  length := SampleRing.length
  isEmpty := SampleRing.isEmpty
  isFull := SampleRing.isFull

/-- A list of at most `capacity` samples, oldest first. -/
def bounded (capacity : Nat) : Fifo (List Int16) where
  push q sample := if q.length = capacity then .error .ringFull else .ok (q ++ [sample])
  pop
    | [] => .error .ringEmpty
    | sample :: q => .ok (sample, q)
  clear _ := []
  length := List.length
  isEmpty := List.isEmpty
  isFull q := q.length == capacity

/-- Carries out a call. -/
def call (F : Fifo σ) (s : σ) : FifoCall → Except Fault (Option Int16 × σ)
  | .push sample => return (none, ← F.push s sample)
  | .pop => do
      let (sample, s) ← F.pop s
      return (some sample, s)
  | .clear => .ok (none, F.clear s)

/-- What is seen in a state after a call gave a sample or none. -/
def view (F : Fifo σ) (sample : Option Int16) (s : σ) : FifoView :=
  ⟨sample, F.length s, F.isEmpty s, F.isFull s⟩

/-- What is seen after each call. A fault ends the trace. -/
def trace (F : Fifo σ) : List FifoCall → σ → List (Except Fault FifoView)
  | [], _ => []
  | c :: calls, s =>
      match F.call s c with
      | .error f => [.error f]
      | .ok (sample, s') => .ok (F.view sample s') :: F.trace calls s'

/-! ## Rings stand for lists -/

/-- A sound ring with the given contents. -/
def Stands (r : SampleRing capacity) (q : List Int16) : Prop := r.Sound ∧ r.contents = q

theorem stands_empty (hpos : 0 < capacity) : Stands (SampleRing.empty capacity) [] :=
  ⟨SampleRing.sound_empty hpos, rfl⟩

theorem stands_clear (hpos : 0 < capacity) (r : SampleRing capacity) : Stands r.clear [] :=
  ⟨SampleRing.sound_clear hpos r, rfl⟩

section Stands

variable {r : SampleRing capacity} {q : List Int16}

theorem Stands.length_eq (h : Stands r q) : r.length = q.length := by
  rw [← h.2, SampleRing.contents_length]

theorem Stands.view_eq (h : Stands r q) (sample : Option Int16) :
    (ring capacity).view sample r = (bounded capacity).view sample q := by
  have hempty : r.isEmpty = q.isEmpty := by
    rw [Bool.eq_iff_iff, SampleRing.isEmpty_iff, List.isEmpty_iff_length_eq_zero, h.length_eq]
  simp only [view, ring, bounded, SampleRing.isFull, h.length_eq, hempty]

/-- A push faults on both sides, or appends on both sides. -/
theorem Stands.push (h : Stands r q) (sample : Int16) :
    (r.push sample = .error .ringFull ∧ q.length = capacity) ∨
    (∃ r', r.push sample = .ok r' ∧ q.length ≠ capacity ∧ Stands r' (q ++ [sample])) := by
  by_cases hfull : q.length = capacity
  · exact Or.inl ⟨SampleRing.push_full (h.length_eq.trans hfull) sample, hfull⟩
  · have hroom : r.length < capacity := by
      apply Nat.lt_of_le_of_ne h.1.length_le
      rw [h.length_eq]
      exact hfull
    obtain ⟨r', hpush, hsound, hcontents⟩ := SampleRing.push_contents h.1 hroom sample
    rw [h.2] at hcontents
    exact Or.inr ⟨r', hpush, hfull, hsound, hcontents⟩

/-- A pop faults on both sides, or takes the head on both sides. -/
theorem Stands.pop (h : Stands r q) :
    (r.pop = .error .ringEmpty ∧ q = []) ∨
    (∃ sample r' q', r.pop = .ok (sample, r') ∧ q = sample :: q' ∧ Stands r' q') := by
  cases q with
  | nil => exact Or.inl ⟨SampleRing.pop_empty h.length_eq, rfl⟩
  | cons x q' =>
    have hne : r.length ≠ 0 := by
      rw [h.length_eq]
      exact Nat.succ_ne_zero _
    obtain ⟨sample, r', hpop, hsound, hcontents⟩ := SampleRing.pop_contents h.1 hne
    rw [h.2] at hcontents
    obtain ⟨rfl, rfl⟩ := List.cons.inj hcontents
    exact Or.inr ⟨x, r', r'.contents, hpop, rfl, hsound, rfl⟩

/-- One call has the same fault on both sides, or the same result in states that still
stand for each other. -/
theorem call_agrees (h : Stands r q) (c : FifoCall) :
    (∃ f, (ring capacity).call r c = .error f ∧ (bounded capacity).call q c = .error f) ∨
    (∃ sample r' q', (ring capacity).call r c = .ok (sample, r') ∧
      (bounded capacity).call q c = .ok (sample, q') ∧ Stands r' q') := by
  cases c with
  | push sample =>
    rcases h.push sample with ⟨hpush, hfull⟩ | ⟨r', hpush, hroom, h'⟩
    · refine Or.inl ⟨.ringFull, ?_, ?_⟩
      · simp only [call, ring, hpush, bind, Except.bind]
      · simp only [call, bounded, if_pos hfull, bind, Except.bind]
    · refine Or.inr ⟨none, r', q ++ [sample], ?_, ?_, h'⟩
      · simp only [call, ring, hpush, bind, Except.bind, pure, Except.pure]
      · simp only [call, bounded, if_neg hroom, bind, Except.bind, pure, Except.pure]
  | pop =>
    rcases h.pop with ⟨hpop, rfl⟩ | ⟨sample, r', q', hpop, rfl, h'⟩
    · refine Or.inl ⟨.ringEmpty, ?_, rfl⟩
      simp only [call, ring, hpop, bind, Except.bind]
    · refine Or.inr ⟨some sample, r', q', ?_, rfl, h'⟩
      simp only [call, ring, hpop, bind, Except.bind, pure, Except.pure]
  | clear =>
    have hpos : 0 < capacity := Nat.lt_of_le_of_lt (Nat.zero_le _) h.1.read_lt
    exact Or.inr ⟨none, r.clear, [], rfl, rfl, stands_clear hpos r⟩

end Stands

/-- A ring and the list that it stands for cannot be told apart. -/
theorem trace_agrees (calls : List FifoCall) {r : SampleRing capacity} {q : List Int16}
    (h : Stands r q) : (ring capacity).trace calls r = (bounded capacity).trace calls q := by
  induction calls generalizing r q with
  | nil => rfl
  | cons c calls ih =>
    rcases call_agrees h c with ⟨f, hring, hlist⟩ | ⟨sample, r', q', hring, hlist, h'⟩
    · simp only [trace, hring, hlist]
    · simp only [trace, hring, hlist, h'.view_eq, ih h']

/-! ## Faults and cells -/

section Sound

variable {r : SampleRing capacity}

theorem push_eq_error (h : r.Sound) (sample : Int16) (f : Fault) :
    r.push sample = .error f ↔ r.length = capacity ∧ f = .ringFull := by
  have hstands : Stands r r.contents := ⟨h, rfl⟩
  rcases hstands.push sample with ⟨hpush, hfull⟩ | ⟨r', hpush, hroom, -⟩
  · rw [SampleRing.contents_length] at hfull
    simp [hpush, hfull, eq_comm]
  · rw [SampleRing.contents_length] at hroom
    simp [hpush, hroom]

theorem pop_eq_error (h : r.Sound) (f : Fault) :
    r.pop = .error f ↔ r.length = 0 ∧ f = .ringEmpty := by
  have hstands : Stands r r.contents := ⟨h, rfl⟩
  have hlength := hstands.length_eq
  rcases hstands.pop with ⟨hpop, hnil⟩ | ⟨sample, r', q', hpop, hcons, -⟩
  · rw [hnil] at hlength
    simp [hpop, hlength, eq_comm]
  · rw [hcons] at hlength
    simp [hpop, hlength]

/-- The cell that a push writes is in the ring. -/
theorem push_place_lt (h : r.Sound) :
    (if r.length = 0 then r.write else SampleRing.after capacity r.write) < capacity := by
  rw [SampleRing.push_place h]
  exact Nat.mod_lt _ (Nat.lt_of_le_of_lt (Nat.zero_le _) h.read_lt)

end Sound

/-- A ring with at least one cell is a bounded queue: every list of calls shows the same
on both. In every ring that arises, a push faults exactly when all cells are taken and a
pop exactly when none is, always as the queue does, and the cells that they use are in
the ring. -/
theorem ring_is_bounded_queue (hpos : 0 < capacity) :
    (∀ calls, (ring capacity).trace calls (SampleRing.empty capacity) =
      (bounded capacity).trace calls []) ∧
    (∀ r : SampleRing capacity, r.Built →
      (∀ sample f, r.push sample = .error f ↔ r.length = capacity ∧ f = .ringFull) ∧
      (∀ f, r.pop = .error f ↔ r.length = 0 ∧ f = .ringEmpty) ∧
      (if r.length = 0 then r.write else SampleRing.after capacity r.write) < capacity ∧
      r.read < capacity) := by
  constructor
  · intro calls
    exact trace_agrees calls (stands_empty hpos)
  · intro r hr
    have hsound := hr.sound hpos
    exact ⟨push_eq_error hsound, pop_eq_error hsound, push_place_lt hsound, hsound.read_lt⟩

theorem ring_is_bounded_queue_for_one_cell :
    0 < 1 ∧ (ring 1).trace [.push 7, .pop, .push (-7), .clear, .push 300, .push 5]
        (SampleRing.empty 1) =
      [.ok ⟨none, 1, false, true⟩, .ok ⟨some 7, 0, true, false⟩, .ok ⟨none, 1, false, true⟩,
        .ok ⟨none, 0, true, false⟩, .ok ⟨none, 1, false, true⟩, .error .ringFull] := by
  refine ⟨Nat.one_pos, ?_⟩
  rw [(ring_is_bounded_queue Nat.one_pos).1]
  rfl

end Fifo

end Chiptune
