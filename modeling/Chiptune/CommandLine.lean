import Chiptune.FileTree
import Chiptune.Patch.Reader
import Chiptune.Patch.Writer
import Chiptune.Render
import Chiptune.Report
import Chiptune.Wave

/-!
# The command line

The arguments name a patch to play, a file to write its samples to, and whether
the voices are reported at the end. A session is what the program prints and
writes, as a function of the arguments and of what came of reading the patch
file; opening files is left to the caller. `run` is the whole program on a file
tree.
-/

set_option autoImplicit false

namespace Chiptune.CommandLine

/-- What the arguments ask for. -/
structure Invocation where
  dumpDemo : Bool
  wavPath? : Option String
  showStatus : Bool
  patchPath? : Option String
  deriving DecidableEq, Repr

/-- The argument after the first `--wav`. -/
def wavPath? : List String → Option String
  | [] => none
  | arg :: args => if arg = "--wav" then args.head? else wavPath? args

/-- The first argument that is no option and does not follow `--wav`. -/
def patchPath? (afterWav : Bool) : List String → Option String
  | [] => none
  | arg :: args =>
      if afterWav || arg.startsWith "--" then patchPath? (arg == "--wav") args else some arg

def Invocation.ofArgs (args : List String) : Invocation where
  dumpDemo := args.contains "--dump-demo"
  wavPath? := CommandLine.wavPath? args
  showStatus := args.contains "--status"
  patchPath? := CommandLine.patchPath? false args

/-- The file that has to be read before the session can start. -/
def Invocation.input? (i : Invocation) : Option String :=
  if i.dumpDemo then none else i.patchPath?

/-- Where text is printed. -/
inductive Stream where
  | out
  | err
  deriving DecidableEq, Repr

/-- A piece of printed text. -/
structure Output where
  stream : Stream
  text : String
  deriving DecidableEq, Repr

/-- A line about a notice. Errors go to the error stream. -/
def logLine (level : Level) (text : String) : Output where
  stream := if level = .error then .err else .out
  text := "[" ++ level.text ++ "] " ++ text ++ "\n"

/-- The lines about notices, without those of the lowest level. -/
def noticeLines (notices : List Notice) : List Output :=
  (notices.filter fun n => n.level ≠ .debug).map fun n => logLine n.level n.text

/-- What is printed, the file that is written after that, what is printed when
it was written, and the exit code. -/
structure Session where
  opening : List Output
  file? : Option (String × ByteArray)
  closing : List Output
  exitCode : UInt8

namespace Session

/-- A session that ends after printing. -/
def done (output : List Output) : Session := ⟨output, none, [], 0⟩

/-- A session that ends with an error after printing. -/
def failed (output : List Output) (message : String) : Session :=
  ⟨output ++ [logLine .error message], none, [], 1⟩

/-- A session that a fault breaks off. -/
def broken (output : List Output) (fault : Fault) : Session :=
  ⟨output ++ [⟨.err, fault.message ++ "\n"⟩], none, [], 101⟩

/-- What is printed after the file was written or could not be written, and
the exit code. -/
def finish (s : Session) (written : Except FileError Unit) : List Output × UInt8 :=
  match s.file?, written with
  | some (path, _), .error cause =>
      ([logLine .error ("Failed to write " ++ path ++ ": " ++ cause.message)], 1)
  | _, _ => (s.closing, s.exitCode)

/-- The reports on the voices of a render. -/
def reports (r : Render) : List Output :=
  r.voices.map fun v => ⟨.out, v.2.report v.1⟩

/-- The line that announces a patch. -/
def announcement (name : String) (p : Patch) : Output :=
  logLine .info (name ++ ": " ++ toString p.lengthMs ++ " ms at " ++ toString p.sampleRate ++
    " Hz, " ++ toString p.channels.length ++ " channel setups, " ++
    toString p.events.length ++ " events")

/-- Renders a patch, writes the samples and reports the voices as asked. -/
def render (i : Invocation) (p : Patch) (before : List Output) : Session :=
  match p.render with
  | .error halt => broken (before ++ noticeLines (halt.player.noticesSince 0)) halt.fault
  | .ok r =>
      let opening := before ++ noticeLines r.notices ++
        [logLine .info ("Rendered " ++ toString r.samples.size ++ " samples at " ++
          toString r.sampleRate ++ " Hz")]
      let status := if i.showStatus then reports r else []
      match i.wavPath? with
      | none => done (opening ++ status)
      | some path =>
          match Wave.encode r.samples r.sampleRate with
          | .error fault => broken opening fault
          | .ok bytes =>
              { opening
                file? := some (path, bytes)
                closing := logLine .info ("Wrote " ++ toString bytes.size ++ " bytes to " ++ path) ::
                  status
                exitCode := 0 }

/-- Plays or renders a patch under a name. Live playback finds no device. -/
def play (i : Invocation) (name : String) (p : Patch) : Session :=
  let before := [announcement name p]
  if i.wavPath?.isSome || i.showStatus then render i p before
  else failed before ("Playback failed: " ++ noDeviceMessage)

/-- The session of an invocation, given what came of reading its input file. -/
def start (i : Invocation) (contents : Except FileError ByteArray) : Session :=
  if i.dumpDemo then done [⟨.out, Patch.demo.toJson ++ "\n"⟩]
  else
    match i.patchPath? with
    | none => play i "demo" Patch.demo
    | some path =>
        match Patch.load contents with
        | .ok p => play i path p
        | .error e => failed [] ("Failed to load " ++ path ++ ": " ++ e.message)

end Session

/-- What a run printed, its exit code, and the files after it. -/
structure Outcome where
  output : List Output
  exitCode : UInt8
  tree : FileTree

/-- Runs the program in the working directory of a file tree. -/
def run (args : List String) (tree : FileTree) : Outcome :=
  let i := Invocation.ofArgs args
  let session := Session.start i (tree.read (i.input?.getD ""))
  let written := match session.file? with
    | some (path, bytes) => tree.write path bytes
    | none => .ok tree
  let (closing, exitCode) := session.finish (written.map fun _ => ())
  { output := session.opening ++ closing
    exitCode
    tree := match written with
      | .ok after => after
      | .error _ => tree }

end Chiptune.CommandLine
