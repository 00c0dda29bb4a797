import Chiptune.Fault

/-!
# Sample rings

A queue of samples in a fixed number of cells. The write cursor stands on the
newest sample and the read cursor on the oldest, so neither moves when the ring
goes from empty to one sample or back. Cells that were read keep their values.
-/

set_option autoImplicit false

namespace Chiptune

/-- A ring of `capacity` cells. -/
structure SampleRing (capacity : Nat) where
  cells : Vector Int16 capacity
  write : Nat
  read : Nat
  length : Nat
  deriving DecidableEq, Repr

namespace SampleRing

variable {capacity : Nat}

/-- An empty ring of zeros. -/
def empty (capacity : Nat) : SampleRing capacity :=
  ⟨Vector.replicate capacity 0, 0, 0, 0⟩

def isEmpty (r : SampleRing capacity) : Bool := r.length == 0

def isFull (r : SampleRing capacity) : Bool := r.length == capacity

/-- The cell after `cursor`. -/
def after (capacity cursor : Nat) : Nat := if cursor + 1 = capacity then 0 else cursor + 1

/-- Appends a sample. -/
def push (r : SampleRing capacity) (sample : Int16) : Except Fault (SampleRing capacity) :=
  if r.length < capacity then
    let write := if r.length = 0 then r.write else after capacity r.write
    if h : write < capacity then
      .ok { r with cells := r.cells.set write sample h, write, length := r.length + 1 }
    else .error (.cellOutOfRange capacity write)
  else .error .ringFull

/-- Takes the oldest sample. -/
def pop (r : SampleRing capacity) : Except Fault (Int16 × SampleRing capacity) :=
  if r.length = 0 then .error .ringEmpty
  else if h : r.read < capacity then
    let sample := r.cells.get ⟨r.read, h⟩
    .ok (sample,
      { r with
        read := if r.length = 1 then r.read else after capacity r.read
        length := r.length - 1 })
  else .error (.cellOutOfRange capacity r.read)

/-- Drops every sample and puts both cursors on the first cell. -/
def clear (r : SampleRing capacity) : SampleRing capacity :=
  { r with write := 0, read := 0, length := 0 }

/-- The cells, read or not, and the cursors. -/
def text (r : SampleRing capacity) : String :=
  let cells := ", ".intercalate (r.cells.toList.map fun c => toString c.toInt)
  "SampleRing \x7b samples: [" ++ cells ++ "], write: " ++ toString r.write ++
    ", read: " ++ toString r.read ++ ", len: " ++ toString r.length ++ " \x7d"

end SampleRing

end Chiptune
