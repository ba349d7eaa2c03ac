import ClosureCodegen.Files.Error

/-!
# File trees

A file tree says what each path names: a directory, a file with its text, or a device.  A path is a
list of names between slashes.  It is walked from the root, or from the working directory if no
slash stands in front, and each name is looked up in the directory that the names before it lead
to.  A place on the way is kept as the list of its names, the innermost in front, so that a step
inward is a cons and a step outward is a tail.
-/

namespace ClosureCodegen

/-- The files that are no files on a disk. -/
inductive Device where
  /-- Has no text, and forgets what is written to it. -/
  | null
  /-- Takes nothing. -/
  | full
  | input
  | output
  | errors
  deriving DecidableEq, Repr

/-- What a path can name. -/
inductive FileEntry where
  | directory
  | file (text : String)
  | device (d : Device)
  deriving DecidableEq, Repr

/-- A place in a tree, as its names from the innermost outward. The root is the empty place. -/
abbrev Place := List String

/-- The places of a tree that hold something, apart from the root, which is a directory. -/
structure FileTree where
  entries : List (Place × FileEntry)
  workingDirectory : Place := []
  deriving DecidableEq, Repr

def maxNameBytes : Nat := 255

def maxPathBytes : Nat := 4095

namespace FileTree

def entry? (t : FileTree) (place : Place) : Option FileEntry :=
  if place = [] then some .directory else t.entries.lookup place

/-- The place that a name leads to. Only a directory leads anywhere, and whether the new place holds
anything is left open. -/
def step (t : FileTree) (place : Place) (name : String) : Except FileError Place :=
  match t.entry? place with
  | none => .error .notFound
  | some .directory =>
    if name = "" ∨ name = "." then .ok place
    else if name = ".." then .ok place.tail
    else if maxNameBytes < name.utf8ByteSize then .error .nameTooLong
    else .ok (name :: place)
  | some _ => .error .notDirectory

/-- The place that the names of a path lead to. -/
def walk (t : FileTree) (path : String) (names : List String) : Except FileError Place :=
  if maxPathBytes < path.utf8ByteSize then .error .nameTooLong
  else
    let start := if path.toList.head? = some '/' then [] else t.workingDirectory
    names.foldlM t.step start

/-- The text of a file, or of standard input. -/
def read (t : FileTree) (input path : String) : Except FileError String := do
  match t.entry? (← t.walk path (path.splitOn "/")) with
  | none => .error .notFound
  | some .directory => .error .isDirectory
  | some (.file text) => .ok text
  | some (.device .input) => .ok input
  | some (.device _) => .ok ""

/-- Where a text goes that is written to a path. A file need not exist, but the directory that is to
hold it must, and a slash at the end asks for a directory. -/
def openForWriting (t : FileTree) (path : String) : Except FileError (Option Device) := do
  let names := path.splitOn "/"
  if names.getLast? = some "" then
    let _ ← t.walk path (names.reverse.dropWhile (· = "")).reverse
    throw .isDirectory
  match t.entry? (← t.walk path names) with
  | none | some (.file _) => .ok none
  | some .directory => .error .isDirectory
  | some (.device .full) => .error .noSpace
  | some (.device d) => .ok (some d)

end FileTree
end ClosureCodegen
