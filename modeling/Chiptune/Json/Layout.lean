/-!
# Writing JSON text

A layout gives the characters of a value at an indentation. Lists and objects
have one item per line, indented by two more blanks; an empty list is written
on one line.
-/

set_option autoImplicit false

namespace Chiptune.Json

/-- The characters of a value at an indentation. -/
abbrev Layout := Nat → List Char

namespace Layout

def natural (n : Nat) : Layout := fun _ => Nat.toDigits 10 n

def boolean (b : Bool) : Layout := fun _ => (if b then "true" else "false").toList

/-- A word in quotes. Words have no characters that need an escape. -/
def word (s : String) : Layout := fun _ => '"' :: s.toList ++ ['"']

/-- A line break followed by the indentation. -/
def newline (indent : Nat) : List Char := '\n' :: List.replicate indent ' '

/-- Items on lines of their own, with a comma after all but the last. -/
def lines (indent : Nat) : List (List Char) → List Char
  | [] => []
  | [item] => newline indent ++ item
  | item :: items => newline indent ++ item ++ ',' :: lines indent items

def list (items : List Layout) : Layout := fun indent =>
  if items.isEmpty then ['[', ']']
  else '[' :: lines (indent + 2) (items.map fun item => item (indent + 2)) ++
    newline indent ++ [']']

/-- A key, a colon and the value. -/
def member (key : String) (value : Layout) : Layout := fun indent =>
  word key indent ++ ':' :: ' ' :: value indent

def object (members : List (String × Layout)) : Layout := fun indent =>
  '\x7b' :: lines (indent + 2) (members.map fun m => member m.1 m.2 (indent + 2)) ++
    newline indent ++ ['\x7d']

end Layout

end Chiptune.Json
