import Chiptune.Proofs.TimeOrder

/-!
# Drains of a timeline

Events come into a timeline one at a time, several at a time, or all at once with a new
timeline. Each is put behind those that are not later; this is the stable order of all that
came in only while the events before it stand in order, so order and content are carried
through every insertion together (`holds_insertAll`).

A drain scans from the cursor to the first event that is later than its time. In ordered
events all that are not later stand before that one. Hence some drains, with times in any
order, hand out the waiting events that any of the times has reached (`handedOut_ranges`) and
leave the others waiting (`waiting_drainAll`). Together this is `drains_are_exact`.
-/

set_option autoImplicit false

namespace Chiptune

/-- The second list has the events of the first in the order of their times, those of the
same time in the order of the first list. -/
structure StableOrder (given stored : List Event) : Prop where
  perm : stored.Perm given
  ordered : TimeOrdered stored
  ties : ∀ time, atTime time stored = atTime time given

theorem stableOrder_inTimeOrder (events : List Event) :
    StableOrder events (inTimeOrder events) where
  perm := inTimeOrder_perm events
  ordered := timeOrdered_inTimeOrder events
  ties time := atTime_inTimeOrder time events

namespace Timeline

/-! ## Insertions -/

/-- What brings events into a timeline. A collection begins a new one. -/
inductive Insertion where
  | push (e : Event)
  | extend (events : List Event)
  | collect (events : List Event)
  deriving DecidableEq, Repr

/-- The timeline after an insertion. -/
def insert (t : Timeline) : Insertion → Timeline
  | .push e => t.push e
  | .extend events => t.extend events
  | .collect events => ofList events

/-- The timeline after insertions into an empty one. -/
def insertAll (calls : List Insertion) : Timeline := calls.foldl insert empty

/-- The events that came in, in the order in which they came. -/
def given (events : List Event) : Insertion → List Event
  | .push e => events ++ [e]
  | .extend more => events ++ more
  | .collect events => events

/-- The events that came into the last timeline that was begun. -/
def givenBy (calls : List Insertion) : List Event := calls.foldl given []

/-- The timeline has the stable order of the events, and nothing was handed out. -/
structure Holds (t : Timeline) (events : List Event) : Prop where
  stored : t.events.toList = inTimeOrder events
  cursor : t.cursor = 0

theorem holds_empty : empty.Holds [] where
  stored := (inTimeOrder_of_ordered List.Pairwise.nil).symm
  cursor := rfl

theorem Holds.stableOrder {t : Timeline} {events : List Event} (h : t.Holds events) :
    StableOrder events t.events.toList := by
  rw [h.stored]
  exact stableOrder_inTimeOrder events

theorem Holds.push {t : Timeline} {events : List Event} (h : t.Holds events) (e : Event) :
    (t.push e).Holds (events ++ [e]) where
  stored := by rw [push_toList, h.stored, insertInTime_inTimeOrder]
  cursor := h.cursor

theorem Holds.extend (more : List Event) {t : Timeline} {events : List Event}
    (h : t.Holds events) : (t.extend more).Holds (events ++ more) := by
  induction more generalizing t events with
  | nil =>
    rw [List.append_nil]
    exact h
  | cons e more ih =>
    have hrest := ih (h.push e)
    rw [List.append_assoc] at hrest
    exact hrest

theorem holds_ofList (events : List Event) : (ofList events).Holds events :=
  holds_empty.extend events

theorem Holds.insert {t : Timeline} {events : List Event} (h : t.Holds events)
    (call : Insertion) : (t.insert call).Holds (given events call) := by
  cases call with
  | push e => exact h.push e
  | extend more => exact h.extend more
  | collect events => exact holds_ofList events

theorem Holds.insertAll (calls : List Insertion) {t : Timeline} {events : List Event}
    (h : t.Holds events) : (calls.foldl Timeline.insert t).Holds (calls.foldl given events) := by
  induction calls generalizing t events with
  | nil => exact h
  | cons call calls ih => exact ih (h.insert call)

theorem holds_insertAll (calls : List Insertion) : (insertAll calls).Holds (givenBy calls) :=
  holds_empty.insertAll calls

/-- In ordered events the rank of a time is the one place with all events up to the time
before it and all later events from it on. -/
theorem lt_rank_iff {events : Array Event} (h : TimeOrdered events.toList) {place : Nat}
    {e : Event} (he : events.toList[place]? = some e) (time : UInt64) :
    place < rank events time ↔ e.time ≤ time := by
  have hsplit := List.takeWhile_append_dropWhile
    (p := fun a : Event => decide (a.time ≤ time)) (l := events.toList)
  rw [← hsplit] at he
  constructor
  · -- the rank is the length of the first part
    intro hlt
    rw [List.getElem?_append_left hlt] at he
    have hmem := List.mem_takeWhile_imp (List.mem_of_getElem? he)
    simpa using hmem
  · intro hle
    apply Nat.not_le.1
    intro hge
    rw [List.getElem?_append_right hge] at he
    have hlater := lt_of_mem_dropWhile h (List.mem_of_getElem? he)
    exact UInt64.lt_irrefl _ (UInt64.lt_of_lt_of_le hlater hle)

/-! ## Drains -/

/-- The timeline after drains. -/
def drainAll (t : Timeline) (times : List UInt64) : Timeline := times.foldl drain t

/-- The places that each drain hands out: from the first number up to the second. -/
def ranges (t : Timeline) : List UInt64 → List (Nat × Nat)
  | [] => []
  | time :: times => (t.cursor, (t.drain time).cursor) :: (t.drain time).ranges times

/-- The events at the places of some ranges. -/
def handedOut (t : Timeline) (places : List (Nat × Nat)) : List Event :=
  places.flatMap fun r => t.between r.1 r.2

/-- Each range begins where the one before it ends. -/
inductive Adjoin : Nat → List (Nat × Nat) → Nat → Prop
  | nil (place : Nat) : Adjoin place [] place
  | cons {first next last : Nat} {places : List (Nat × Nat)} :
      first ≤ next → Adjoin next places last → Adjoin first ((first, next) :: places) last

/-- One of the times has reached the event. -/
abbrev Reached (times : List UInt64) (e : Event) : Prop := ∃ time ∈ times, e.time ≤ time

theorem reached_cons {time : UInt64} {times : List UInt64} {e : Event} :
    Reached (time :: times) e ↔ e.time ≤ time ∨ Reached times e := by
  simp [Reached]

theorem reached_append {earlier times : List UInt64} {e : Event} :
    Reached (earlier ++ times) e ↔ Reached earlier e ∨ Reached times e := by
  simp [Reached, or_and_right, exists_or]

theorem cursor_le_drain (t : Timeline) (time : UInt64) : t.cursor ≤ (t.drain time).cursor := by
  rw [drain_cursor]
  exact Nat.le_add_right _ _

theorem adjoin_ranges (times : List UInt64) (t : Timeline) :
    Adjoin t.cursor (t.ranges times) (t.drainAll times).cursor := by
  induction times generalizing t with
  | nil => exact .nil t.cursor
  | cons time times ih => exact .cons (cursor_le_drain t time) (ih (t.drain time))

theorem drainAll_events (times : List UInt64) (t : Timeline) :
    (t.drainAll times).events = t.events := by
  induction times generalizing t with
  | nil => rfl
  | cons time times ih => exact ih (t.drain time)

/-- The waiting events that a time or one of some others has reached: first those of that
time, then those of the others. -/
theorem filter_reached_cons {l : List Event} (hl : TimeOrdered l) (time : UInt64)
    (times : List UInt64) :
    (l.filter fun e => Reached (time :: times) e) =
      (l.takeWhile fun e => e.time ≤ time) ++
        (l.dropWhile fun e => e.time ≤ time).filter fun e => Reached times e := by
  have hsplit := List.takeWhile_append_dropWhile
    (p := fun e : Event => decide (e.time ≤ time)) (l := l)
  conv => lhs; rw [← hsplit, List.filter_append]
  congr 1
  · apply List.filter_eq_self.2
    intro e he
    have hle : e.time ≤ time := by simpa using List.mem_takeWhile_imp he
    exact decide_eq_true (reached_cons.2 (.inl hle))
  · apply List.filter_congr
    intro e he
    -- the scan stopped before this event, so the time has not reached it
    have hlater : ¬ e.time ≤ time := UInt64.not_le.2 (lt_of_mem_dropWhile hl he)
    rw [decide_eq_decide, reached_cons, or_iff_right hlater]

theorem handedOut_ranges (times : List UInt64) {t : Timeline} (ht : TimeOrdered t.events.toList) :
    t.handedOut (t.ranges times) = t.waiting.filter fun e => Reached times e := by
  induction times generalizing t with
  | nil =>
    symm
    apply List.filter_eq_nil_iff.2
    intro e _
    simp
  | cons time times ih =>
    -- a drain moves the cursor and leaves the events where they are
    have hrest : (t.drain time).handedOut ((t.drain time).ranges times) = _ :=
      ih (t := t.drain time) ht
    rw [waiting_drain] at hrest
    rw [filter_reached_cons (waiting_ordered ht), ← between_drain, ← hrest]
    rfl

theorem waiting_drainAll (times : List UInt64) {t : Timeline} (ht : TimeOrdered t.events.toList) :
    (t.drainAll times).waiting = t.waiting.filter fun e => ¬ Reached times e := by
  induction times generalizing t with
  | nil =>
    symm
    apply List.filter_eq_self.2
    intro e _
    simp
  | cons time times ih =>
    have hrest := ih (t := t.drain time) ht
    rw [waiting_drain, dropWhile_eq_filter (waiting_ordered ht), List.filter_filter] at hrest
    refine hrest.trans (List.filter_congr ?_)
    intro e _
    rw [← Bool.decide_and, decide_eq_decide, reached_cons, not_or, and_comm]

theorem isExhausted_iff (t : Timeline) : t.isExhausted = true ↔ t.waiting = [] := by
  simp [isExhausted, waiting, List.drop_eq_nil_iff]

/-- For all insertions, and drains with times in any order after some earlier drains. The
stored events are the stable order of the events that came in, and every insertion finds the
place between those up to its time and the later ones. The drains return ranges side by side
from the cursor on, with exactly the events that the times have reached and the earlier times
have not, each once and in the stored order. The timeline is exhausted when no event is later
than every time. Rewound, it is what it was before the first drain, so the same drains return
the same ranges and events again. -/
theorem drains_are_exact (calls : List Insertion) (earlier times : List UInt64) :
    let whole := insertAll calls
    let stored := whole.events.toList
    let t := whole.drainAll earlier
    StableOrder (givenBy calls) stored ∧
      (∀ time place e, stored[place]? = some e →
        (place < rank whole.events time ↔ e.time ≤ time)) ∧
      whole.cursor = 0 ∧
      Adjoin t.cursor (t.ranges times) (t.drainAll times).cursor ∧
      t.handedOut (t.ranges times) = (stored.filter fun e =>
        (∃ time ∈ times, e.time ≤ time) ∧ ¬ ∃ time ∈ earlier, e.time ≤ time) ∧
      ((t.drainAll times).isExhausted = true ↔
        ∀ e ∈ stored, ∃ time ∈ earlier ++ times, e.time ≤ time) ∧
      (t.drainAll times).rewind = whole := by
  intro whole stored t
  have hholds := holds_insertAll calls
  have hordered : TimeOrdered stored := hholds.stableOrder.ordered
  have ht : TimeOrdered t.events.toList := by
    rw [drainAll_events]
    exact hordered
  have hwhole : whole.waiting = stored := by
    rw [waiting, hholds.cursor, List.drop_zero]
  have hwaiting : t.waiting = stored.filter fun e => ¬ Reached earlier e := by
    rw [waiting_drainAll earlier hordered, hwhole]
  refine ⟨hholds.stableOrder, ?_, hholds.cursor, adjoin_ranges times t, ?_, ?_, ?_⟩
  · intro time place e he
    exact lt_rank_iff hordered he time
  · rw [handedOut_ranges times ht, hwaiting, List.filter_filter]
    apply List.filter_congr
    intro e _
    simp
  · rw [isExhausted_iff, waiting_drainAll times ht, hwaiting, List.filter_filter,
      List.filter_eq_nil_iff]
    apply forall₂_congr
    intro e _
    rw [← Bool.decide_and, decide_eq_true_iff, ← not_or, not_not, or_comm]
    exact reached_append.symm
  · have hevents : (t.drainAll times).events = whole.events := by
      rw [drainAll_events, drainAll_events]
    show Timeline.mk (t.drainAll times).events 0 = ⟨whole.events, whole.cursor⟩
    rw [hevents, hholds.cursor]

end Timeline

end Chiptune
