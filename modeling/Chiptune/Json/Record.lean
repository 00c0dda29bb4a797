import Chiptune.Json.Skip

/-!
# Reading values of a known shape

Scanners for natural numbers, truth values, options, lists and records. A
record is read from an object, whose unknown keys are passed over, or from a
list of its fields in order.
-/

set_option autoImplicit false

namespace Chiptune.Json

variable {α σ : Type}

/-- The reason why a value of the wrong kind is refused. A bracket is wrong at
once; any other value is scanned to its end first. -/
def wrongKind : List Char → ReadError
  | [] => .truncated
  | c :: cs =>
      if c = '[' ∨ c = '\x7b' then .mismatch
      else
        match Care.strict.scalar (c :: cs) with
        | .ok _ => .mismatch
        | .error e => e

/-- A natural number up to a limit. -/
def natural (limit : Nat) : Scan Nat := fun cs =>
  match skipBlanks cs with
  | [] => .error .truncated
  | c :: cs =>
      if startsNumber c then do
        match ← number (c :: cs) with
        | (some n, rest) => if n ≤ limit then .ok (n, rest) else .error .mismatch
        | (none, _) => .error .mismatch
      else .error (wrongKind (c :: cs))

/-- A natural number of 8 bits. -/
def byte : Scan UInt8 := fun cs => do
  let (n, rest) ← natural 255 cs
  return (n.toUInt8, rest)

/-- A truth value. -/
def boolean : Scan Bool := fun cs =>
  match skipBlanks cs with
  | 't' :: cs => return (true, ← expect ['r', 'u', 'e'] cs)
  | 'f' :: cs => return (false, ← expect ['a', 'l', 's', 'e'] cs)
  | cs => .error (wrongKind cs)

/-- A value or `null`. -/
def optional (item : Scan α) : Scan (Option α) := fun cs =>
  match skipBlanks cs with
  | 'n' :: cs => return (none, ← expect ['u', 'l', 'l'] cs)
  | cs => do
      let (a, rest) ← item cs
      return (some a, rest)

/-! ## Lists -/

/-- The start of the next element of a list, or the rest after the list. -/
def nextElement (first : Bool) (cs : List Char) : Except ReadError (Bool × List Char) :=
  match skipBlanks cs with
  | [] => .error .truncated
  | c :: cs =>
      if c = ']' then .ok (false, cs)
      else if first then .ok (true, c :: cs)
      else if c = ',' then
        match skipBlanks cs with
        | [] => .error .truncated
        | c :: cs => if c = ']' then .error .malformed else .ok (true, c :: cs)
      else .error .malformed

/-- At most `n` elements of a list and its end. -/
def elements (item : Scan α) : Nat → Bool → List Char → Except ReadError (List α × List Char)
  | 0, _, _ => .error .truncated
  | n + 1, first, cs => do
      match ← nextElement first cs with
      | (false, rest) => return ([], rest)
      | (true, cs) =>
          let (a, cs) ← item cs
          let (as, cs) ← elements item n false cs
          return (a :: as, cs)

/-- A list of any length. -/
def list (item : Scan α) : Scan (List α) := fun cs =>
  match skipBlanks cs with
  | '[' :: cs => elements item (cs.length + 1) true cs
  | cs => .error (wrongKind cs)

/-- The rest after the end of a list that has no more elements to give. -/
def endOfList (cs : List Char) : Except ReadError (List Char) :=
  match skipBlanks cs with
  | [] => .error .truncated
  | c :: cs => if c = ']' then .ok cs else .error .malformed

/-! ## Objects -/

/-- The next key of an object with the rest after it, or the rest after the
object. -/
def nextKey (first : Bool) (cs : List Char) : Except ReadError (Option String × List Char) :=
  match skipBlanks cs with
  | [] => .error .truncated
  | c :: cs =>
      if c = '\x7d' then .ok (none, cs)
      else if first then quoted (c :: cs)
      else if c = ',' then
        match skipBlanks cs with
        | [] => .error .truncated
        | c :: cs => quoted (c :: cs)
      else .error .malformed
where
  /-- A key in quotes. -/
  quoted : List Char → Except ReadError (Option String × List Char)
    | [] => .error .truncated
    | c :: cs =>
        if c = '"' then do
          let (key, rest) ← textFrom [] cs
          return (some key, rest)
        else .error .malformed

/-- At most `n` members of an object and its end. Each member changes a state;
it is scanned from the end of its key on. -/
def members (member : String → σ → Scan σ) : Nat → Bool → σ → Scan σ
  | 0, _, _, _ => .error .truncated
  | n + 1, first, state, cs => do
      match ← nextKey first cs with
      | (none, rest) => return (state, rest)
      | (some key, cs) =>
          let (state, cs) ← member key state cs
          members member n false state cs

/-- A value that has the wrong shape if it is absent. -/
def required : Option α → Except ReadError α
  | some a => .ok a
  | none => .error .mismatch

/-! ## Records -/

/-- A field of a record that is being read into a state. -/
structure Field (σ : Type) where
  name : String
  isSet : σ → Bool
  read : σ → Scan σ

/-- The fields of a record, and the value that a state gives when all that is
necessary was set. -/
structure Record (σ α : Type) where
  start : σ
  fields : List (Field σ)
  build : σ → Option α

namespace Record

/-- One member of an object. A field may be given once; an unknown key is
passed over. -/
def member (r : Record σ α) (key : String) (state : σ) : Scan σ := fun cs =>
  match r.fields.find? fun f => f.name == key with
  | some f => if f.isSet state then .error .mismatch else do f.read state (← colon cs)
  | none => do return (state, ← skipValue .lenient 0 (← colon cs))

/-- The fields in order, from the elements of a list. -/
def inOrder : List (Field σ) → Bool → σ → Scan σ
  | [], _, state, cs => return (state, ← endOfList cs)
  | f :: fs, first, state, cs => do
      match ← nextElement first cs with
      | (false, rest) => return (state, rest)
      | (true, cs) =>
          let (state, cs) ← f.read state cs
          inOrder fs false state cs

/-- A record from an object or from a list. -/
def scan (r : Record σ α) : Scan α := fun cs =>
  match skipBlanks cs with
  | '\x7b' :: cs => do
      let (state, rest) ← members r.member (cs.length + 1) true r.start cs
      return (← required (r.build state), rest)
  | '[' :: cs => do
      let (state, rest) ← inOrder r.fields true r.start cs
      return (← required (r.build state), rest)
  | cs => .error (wrongKind cs)

end Record

/-- The value of a whole text. Only blanks may follow it. -/
def whole (item : Scan α) (cs : List Char) : Except ReadError α := do
  let (a, rest) ← item cs
  if (skipBlanks rest).isEmpty then return a else throw .malformed

end Chiptune.Json
