import Chiptune.Json.Scan

/-!
# Passing over values

A value is passed over by a machine that keeps a stack of open brackets. With
strict care the number of open brackets is limited.
-/

set_option autoImplicit false

namespace Chiptune.Json

/-- An open bracket. -/
inductive Frame where
  | list
  | object
  deriving DecidableEq, Repr

/-- What the machine expects: a value, the first item of an opened bracket or
its end, or what may follow a value. -/
inductive Expecting where
  | value
  | item
  | more
  deriving DecidableEq, Repr

/-- The largest number of open brackets in a value that is read. -/
def depthLimit : Nat := 127

/-- Another bracket may be opened. -/
def Care.allows (care : Care) (depth : Nat) : Bool :=
  match care with
  | .strict => depth < depthLimit
  | .lenient => true

/-- The rest after a string whose opening quote was taken. -/
def Care.text (care : Care) (cs : List Char) : Except ReadError (List Char) :=
  match care with
  | .strict => return (← textFrom [] cs).2
  | .lenient => skipText cs

/-- The rest after a number. -/
def Care.number (care : Care) (cs : List Char) : Except ReadError (List Char) :=
  match care with
  | .strict => return (← Json.number cs).2
  | .lenient => return (← numeral .lenient cs).2

/-- The rest after a value that is no list and no object. -/
def Care.scalar (care : Care) : List Char → Except ReadError (List Char)
  | [] => .error .truncated
  | c :: cs =>
      if c = '"' then care.text cs
      else if startsNumber c then care.number (c :: cs)
      else skipWord (c :: cs)

/-- The rest after a colon. -/
def colon (cs : List Char) : Except ReadError (List Char) :=
  match skipBlanks cs with
  | [] => .error .truncated
  | c :: cs => if c = ':' then .ok cs else .error .malformed

/-- The rest after a key and its colon. -/
def Care.key (care : Care) (cs : List Char) : Except ReadError (List Char) :=
  match skipBlanks cs with
  | [] => .error .truncated
  | c :: cs => if c = '"' then do colon (← care.text cs) else .error .malformed

def Frame.close : Frame → Char
  | .list => ']'
  | .object => '\x7d'

/-- The rest after what precedes a value in a bracket. -/
def Frame.before (care : Care) (cs : List Char) : Frame → Except ReadError (List Char)
  | .list => .ok cs
  | .object => care.key cs

/-- The machine, with `depth` brackets open around the value. -/
def skipFrom (care : Care) (depth : Nat) :
    Nat → Expecting → List Frame → List Char → Except ReadError (List Char)
  | 0, _, _, _ => .error .truncated
  | _ + 1, .more, [], cs => .ok cs
  | n + 1, .more, frame :: stack, cs =>
      match skipBlanks cs with
      | [] => .error .truncated
      | c :: cs =>
          if c = ',' then do skipFrom care depth n .value (frame :: stack) (← frame.before care cs)
          else if c = frame.close then skipFrom care depth n .more stack cs
          else .error .malformed
  | n + 1, .item, stack, cs =>
      match stack, skipBlanks cs with
      | [], cs => skipFrom care depth n .more [] cs
      | _ :: _, [] => .error .truncated
      | frame :: stack, c :: cs =>
          if c = frame.close then skipFrom care depth n .more stack cs
          else do
            skipFrom care depth n .value (frame :: stack) (← frame.before care (c :: cs))
  | n + 1, .value, stack, cs =>
      match skipBlanks cs with
      | [] => .error .truncated
      | c :: cs =>
          if c = '[' then
            if care.allows (depth + stack.length) then
              skipFrom care depth n .item (.list :: stack) cs
            else .error .malformed
          else if c = '\x7b' then
            if care.allows (depth + stack.length) then
              skipFrom care depth n .item (.object :: stack) cs
            else .error .malformed
          else do skipFrom care depth n .more stack (← care.scalar (c :: cs))

/-- The rest after a value. Every character leads to at most two steps of the
machine. -/
def skipValue (care : Care) (depth : Nat) (cs : List Char) : Except ReadError (List Char) :=
  skipFrom care depth (2 * cs.length + 3) .value [] cs

end Chiptune.Json
