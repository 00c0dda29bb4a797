/-!
# File errors

Why a file could not be read or written. An error is named where the library
can tell it from a path; any other error keeps its number and its text.
-/

set_option autoImplicit false

namespace Chiptune

/-- Why a file could not be read or written. -/
inductive FileError where
  | notFound
  | notDirectory
  | isDirectory
  | nameTooLong
  | other (code : UInt32) (text : String)
  deriving DecidableEq, Repr

namespace FileError

/-- The error with a number. -/
def ofCode (code : UInt32) (text : String) : FileError :=
  match code with
  | 2 => notFound
  | 20 => notDirectory
  | 21 => isDirectory
  | 36 => nameTooLong
  | _ => other code text

/-- The text of an error and its number. -/
def message : FileError → String
  | notFound => "No such file or directory (os error 2)"
  | notDirectory => "Not a directory (os error 20)"
  | isDirectory => "Is a directory (os error 21)"
  | nameTooLong => "File name too long (os error 36)"
  | other code text => s!"{text} (os error {code})"

end FileError

end Chiptune
