import Chiptune.Command

/-!
# Timelines

Events in the order of their times, and a cursor that separates the events that
were handed out from those that were not. Handing out moves the cursor and
removes nothing.
-/

set_option autoImplicit false

namespace Chiptune

/-- Events sorted by time, and the number of those handed out. -/
structure Timeline where
  events : Array Event
  cursor : Nat
  deriving DecidableEq, Repr

namespace Timeline

def empty : Timeline := ⟨#[], 0⟩

/-- The number of events at the front that are not later than `time`. -/
def rank (events : Array Event) (time : UInt64) : Nat :=
  (events.toList.takeWhile fun e => e.time ≤ time).length

/-- Inserts an event after those of the same time. The cursor keeps its place. -/
def push (t : Timeline) (e : Event) : Timeline :=
  let place := rank t.events e.time
  { t with events := (t.events.toList.take place ++ e :: t.events.toList.drop place).toArray }

/-- Inserts events one after the other. -/
def extend (t : Timeline) (events : List Event) : Timeline := events.foldl push t

/-- The timeline of some events, with nothing handed out. -/
def ofList (events : List Event) : Timeline := empty.extend events

/-- The first place from `place` on with an event later than `time`. -/
def advance (events : Array Event) (time : UInt64) (place : Nat) : Nat :=
  if h : place < events.size then
    if events[place].time ≤ time then advance events time (place + 1) else place
  else place
termination_by events.size - place

/-- Hands out every event that is not later than `time`. -/
def drain (t : Timeline) (time : UInt64) : Timeline :=
  { t with cursor := advance t.events time t.cursor }

/-- The events from place `first` up to place `last`. -/
def between (t : Timeline) (first last : Nat) : List Event :=
  (t.events.extract first last).toList

/-- The next event to hand out. -/
def peek? (t : Timeline) : Option Event := t.events[t.cursor]?

def get? (t : Timeline) (place : Nat) : Option Event := t.events[place]?

/-- Nothing is handed out again. -/
def rewind (t : Timeline) : Timeline := { t with cursor := 0 }

def isEmpty (t : Timeline) : Bool := t.events.isEmpty

def size (t : Timeline) : Nat := t.events.size

/-- Every event was handed out. -/
def isExhausted (t : Timeline) : Bool := t.events.size ≤ t.cursor

/-- The time of the last event. -/
def endTime? (t : Timeline) : Option UInt64 := t.events.back?.map Event.time

end Timeline

end Chiptune
