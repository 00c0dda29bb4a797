import Chiptune.CommandLine

/-!
# The program

Reads the patch file, prints what the session prints and writes its file.
-/

set_option autoImplicit false

open Chiptune Chiptune.CommandLine

/-- Prints pieces of text on their streams. -/
def printAll (output : List Output) : IO Unit :=
  output.forM fun piece =>
    match piece.stream with
    | .out => IO.print piece.text
    | .err => IO.eprint piece.text

/-- The number of an error. Some operations give it with a minus sign. -/
def errorNumber (code : UInt32) : UInt32 := if code < 0x80000000 then code else 0 - code

/-- The error that an operation on a file ended with. -/
def fileError : IO.Error → FileError
  | .noFileOrDirectory _ code text | .inappropriateType _ code text
  | .invalidArgument _ code text | .permissionDenied _ code text
  | .resourceExhausted _ code text => .ofCode (errorNumber code) text
  | e => .other 5 (toString e)

/-- The contents of a file. -/
def contentsOf (path : String) : IO (Except FileError ByteArray) :=
  try return .ok (← IO.FS.readBinFile path) catch e => return .error (fileError e)

/-- Writes a file. -/
def writeTo (path : String) (bytes : ByteArray) : IO (Except FileError Unit) :=
  try return .ok (← IO.FS.writeBinFile path bytes) catch e => return .error (fileError e)

def main (args : List String) : IO UInt32 := do
  let invocation := Invocation.ofArgs args
  let contents ← match invocation.input? with
    | some path => contentsOf path
    | none => pure (.error .notFound)
  let session := Session.start invocation contents
  printAll session.opening
  let written ← match session.file? with
    | some (path, bytes) => writeTo path bytes
    | none => pure (.ok ())
  let (closing, exitCode) := session.finish written
  printAll closing
  return exitCode.toUInt32
