import Chiptune.FileError

/-!
# File trees

The files below a working directory, and how paths lead to them. Every name of
a path but the last has to lead to a directory; the first that does not decides
the error. Directories are those on the way to a file. Nothing is known of the
places outside of the working directory: a name that is looked up there is not
found, and a file that is written there leaves the tree as it is.
-/

set_option autoImplicit false

namespace Chiptune

/-- Files under the names that lead down to them. -/
structure FileTree where
  files : List (List String × ByteArray)

/-- A directory: one in the tree, or one outside of it. -/
inductive Folder where
  | inside (names : List String)
  | outside
  deriving DecidableEq, Repr

/-- What a name stands for. -/
inductive FileNode where
  | file (bytes : ByteArray)
  | directory
  | absent

/-- A path without its last name: where it starts, the names on the way, the
last name, and whether a slash follows that name. -/
structure FilePath where
  start : Folder
  parents : List String
  last : String
  closed : Bool
  deriving DecidableEq, Repr

/-- The largest number of bytes in a name. -/
def nameLimit : Nat := 255

/-- The largest number of bytes in a path. -/
def pathLimit : Nat := 4095

/-- The parts of a path. The empty path leads nowhere. -/
def FilePath.ofString (path : String) : Except FileError FilePath :=
  if path.isEmpty then .error .notFound
  else if pathLimit < path.utf8ByteSize then .error .nameTooLong
  else
    let names := path.splitOn "/"
    let reversed := names.reverse.dropWhile String.isEmpty
    .ok {
      start := if path.startsWith "/" then .outside else .inside []
      parents := reversed.tail.reverse
      last := reversed.headD "."
      closed := decide (reversed.length < names.length) }

/-- The directory above. -/
def Folder.parent : Folder → Folder
  | .inside [] => .outside
  | .inside names => .inside names.dropLast
  | .outside => .outside

namespace FileTree

/-- What stands at the end of some names. -/
def nodeAt (t : FileTree) (names : List String) : FileNode :=
  match t.files.lookup names with
  | some bytes => .file bytes
  | none =>
      if names.isEmpty || t.files.any fun f => names.isPrefixOf f.1 then .directory else .absent

/-- What a name stands for in a directory. -/
def lookup (t : FileTree) (folder : Folder) (name : String) : Except FileError FileNode :=
  if name = "" ∨ name = "." ∨ name = ".." then .ok .directory
  else if nameLimit < name.utf8ByteSize then .error .nameTooLong
  else
    match folder with
    | .inside names => .ok (t.nodeAt (names ++ [name]))
    | .outside => .ok .absent

/-- The directory of that name in a directory. -/
def enter (t : FileTree) (folder : Folder) (name : String) : Except FileError Folder := do
  match ← t.lookup folder name with
  | .directory =>
      if name = "" ∨ name = "." then return folder
      else if name = ".." then return folder.parent
      else
        match folder with
        | .inside names => return .inside (names ++ [name])
        | .outside => return .outside
  | .file _ => throw .notDirectory
  | .absent => throw .notFound

/-- The directory at the end of some names. -/
def walk (t : FileTree) : Folder → List String → Except FileError Folder
  | folder, [] => .ok folder
  | folder, name :: names => do t.walk (← t.enter folder name) names

/-- The bytes of a file. -/
def read (t : FileTree) (path : String) : Except FileError ByteArray := do
  let p ← FilePath.ofString path
  let folder ← t.walk p.start p.parents
  match ← t.lookup folder p.last with
  | .file bytes => if p.closed then throw .notDirectory else return bytes
  | .directory => throw .isDirectory
  | .absent => throw .notFound

/-- The tree with the bytes under some names, in place of those that were
there. -/
def put (t : FileTree) (names : List String) (bytes : ByteArray) : FileTree :=
  ⟨t.files.filter (fun f => f.1 != names) ++ [(names, bytes)]⟩

/-- Writes a file, new or in place of an old one. A path that ends in a slash
does not name a file. -/
def write (t : FileTree) (path : String) (bytes : ByteArray) : Except FileError FileTree := do
  let p ← FilePath.ofString path
  let folder ← t.walk p.start p.parents
  if p.closed then throw .isDirectory
  match ← t.lookup folder p.last, folder with
  | .directory, _ => throw .isDirectory
  | _, .inside names => return t.put (names ++ [p.last]) bytes
  | _, .outside => return t

/-- The files that another tree does not have. -/
def newSince (t before : FileTree) : List (List String × ByteArray) :=
  t.files.filter fun f => (before.files.lookup f.1).isNone

/-- What was put under some names stands there. -/
theorem nodeAt_put (t : FileTree) (names : List String) (bytes : ByteArray) :
    (t.put names bytes).nodeAt names = .file bytes := by
  have gone : (t.files.filter fun f => f.1 != names).lookup names = none := by
    rw [List.lookup_eq_none_iff]
    intro f hf
    have hne : f.1 ≠ names := bne_iff_ne.1 (List.mem_filter.1 hf).2
    exact bne_iff_ne.2 hne.symm
  have h : (t.put names bytes).files.lookup names = some bytes := by
    simp [put, List.lookup_append, gone]
  simp [nodeAt, h]

end FileTree

end Chiptune
