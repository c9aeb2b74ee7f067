import JsPrune.Command.Run

/-!
# Files in memory

A working directory with files in it, for runs that touch nothing else. Paths are taken apart at
slashes and followed step by step, with `.` for the place itself and `..` for the one above. A
directory exists if a file lies below it. Nothing is known of what lies outside the working
directory, so no name is found there.
-/

namespace JsPrune

/-- The files below a working directory, each under the names on the way to it. -/
structure Directory where
  /-- Paths and contents; no path occurs twice. -/
  files : List (List String × ByteArray)

namespace Directory

/-- A place that a path may lead to: below the working directory, or outside of it. -/
inductive Place where
  | inside (path : List String)
  | outside
deriving DecidableEq

variable (directory : Directory)

/-- The contents of a file. -/
def contents? (path : List String) : Option ByteArray := directory.files.lookup path

/-- Whether a place is a directory. -/
def isDirectory : Place → Bool
  | .outside => true
  | .inside path =>
    path.isEmpty || directory.files.any fun file => path.isPrefixOf file.1 && path != file.1

/-- Lets a directory pass. -/
def expectDirectory (place : Place) : Except IoFailure Unit :=
  if directory.isDirectory place then .ok ()
  else
    match place with
    | .inside path =>
      .error (if (directory.contents? path).isSome then .notDirectory else .notFound)
    | .outside => .error .notFound

/-- One step along a path. What it leads to need not exist. -/
def step (place : Place) (name : String) : Except IoFailure Place := do
  directory.expectDirectory place
  match place with
  | .outside => if ["", ".", ".."].contains name then return .outside else throw .notFound
  | .inside path =>
    if name == "" || name == "." then return place
    -- Above the working directory nothing is known but that it exists.
    else if name == ".." then return if path.isEmpty then .outside else .inside path.dropLast
    else return .inside (path ++ [name])

/-- The steps of a path, and where they start. -/
def steps (path : String) : Place × List String :=
  (if path.startsWith "/" then .outside else .inside [], path.splitOn "/")

/-- The place that a path leads to. -/
def locate (path : String) : Except IoFailure Place :=
  let (start, names) := steps path
  names.foldlM directory.step start

/-- The contents of the file that a path leads to. -/
def read (path : String) : Except IoFailure ByteArray := do
  let place ← directory.locate path
  if directory.isDirectory place then throw .isDirectory
  match place with
  | .inside names => match directory.contents? names with
    | some bytes => return bytes
    | none => throw .notFound
  | .outside => throw .notFound

/-- The directory with a file put in or replaced. The way to the file has to exist, and a path that
ends in a slash can only mean a directory. -/
def write (path : String) (bytes : ByteArray) : Except IoFailure Directory := do
  let (start, names) := steps path
  -- Trailing slashes leave empty names at the end.
  let kept := (names.reverse.dropWhile (· == "")).reverse
  let way ← kept.dropLast.foldlM directory.step start
  let place ← directory.step way (kept.getLastD "")
  if kept.length < names.length || directory.isDirectory place then throw .isDirectory
  match place with
  | .inside target =>
    return ⟨(target, bytes) :: directory.files.filter fun file => file.1 != target⟩
  | .outside => throw .notFound

end Directory

/-- A working directory with the two streams. -/
structure Workspace where
  /-- The files. -/
  directory : Directory
  /-- What stands on standard input. -/
  input : ByteArray
  /-- What has been written to standard output. -/
  output : ByteArray

/-- A run in memory. -/
def Workspace.surroundings : Surroundings (StateM Workspace) where
  readFile path := return (← get).directory.read path
  readInput := return .ok (← get).input
  writeFile path bytes := do
    let workspace ← get
    match workspace.directory.write path bytes with
    | .error failure => return .error failure
    | .ok directory =>
      set { workspace with directory }
      return .ok ()
  writeOutput bytes := do
    modify fun workspace => { workspace with output := workspace.output ++ bytes }
    return .ok ()

end JsPrune
