/-! Files by path, and why one cannot be read.

A directory is a list of named files; a name with slashes puts a file into a
subdirectory. A path is followed one component at a time from the directory
itself, so what goes wrong first is what is reported: a missing name, a file
where a directory is needed, or a name longer than a file system keeps.

The directory lies among the temporary files of a system, and a path may climb
out of it or start at the root. What it finds there is what every system has: the
standard directories and the null device, a file without bytes. -/
namespace ByteByteJump

/-- Why a file cannot be read. -/
inductive ReadFailure where
  | notFound
  | permissionDenied
  | notDirectory
  | isDirectory
  | nameTooLong
  | other (code : Nat)
deriving DecidableEq, Repr

namespace ReadFailure

/-- The system's number for the failure. -/
def code : ReadFailure → Nat
  | notFound => 2
  | permissionDenied => 13
  | notDirectory => 20
  | isDirectory => 21
  | nameTooLong => 36
  | other code => code

/-- The failure with a number. -/
def ofCode : Nat → ReadFailure
  | 2 => notFound
  | 13 => permissionDenied
  | 20 => notDirectory
  | 21 => isDirectory
  | 36 => nameTooLong
  | code => other code

def description : ReadFailure → String
  | notFound => "No such file or directory"
  | permissionDenied => "Permission denied"
  | notDirectory => "Not a directory"
  | isDirectory => "Is a directory"
  | nameTooLong => "File name too long"
  | other code => "Unknown error " ++ toString code

def text (f : ReadFailure) : String := f.description ++ " (os error " ++ toString f.code ++ ")"

end ReadFailure

/-- Files with their names, each a list of path components. -/
structure Directory where
  files : List (List String × ByteArray)

namespace Directory

/-- The parts of a path between its slashes. -/
def components (path : String) : List String := path.splitOn "/"

def ofFiles (files : List (String × ByteArray)) : Directory :=
  ⟨files.map fun (name, bytes) => ((components name).filter (· ≠ ""), bytes)⟩

/-! ### Places -/

/-- A place that a path leads to. -/
inductive Place where
  /-- Inside the directory, by the names from it. -/
  | inside (names : List String)
  /-- Elsewhere in the system, by the names from its root. -/
  | outside (names : List String)
deriving DecidableEq, Repr

/-- Where a system keeps temporary files, this directory among them. -/
def temporary : List String := ["tmp"]

/-- The place that holds a place; the root holds itself. -/
def Place.parent : Place → Place
  | inside [] => outside temporary
  | inside (name :: names) => inside (name :: names).dropLast
  | outside names => outside names.dropLast

/-- The directories every system has, by the names from its root. -/
def standard : List (List String) :=
  let top := ["bin", "boot", "dev", "etc", "home", "lib", "media", "mnt", "opt", "proc", "root",
    "run", "sbin", "srv", "sys", "tmp", "usr", "var"]
  let usr := ["bin", "lib", "local", "sbin", "share", "src"]
  let var := ["cache", "lib", "local", "lock", "log", "mail", "opt", "run", "spool", "tmp"]
  top.map ([·]) ++ usr.map (["usr", ·]) ++ var.map (["var", ·])

/-- The device that is empty whatever is written to it. -/
def nullDevice : List String := ["dev", "null"]

/-- The bytes of the file at a place, if a file is there. -/
def file? (d : Directory) : Place → Option ByteArray
  | .inside names => d.files.lookup names
  | .outside names => if names = nullDevice then some ByteArray.empty else none

/-- Whether the names lead to the directory, a subdirectory or a file. -/
def holds (d : Directory) (names : List String) : Bool :=
  names.isEmpty || d.files.any fun (name, _) => names.isPrefixOf name

/-- The place of a name at a place, if there is something of that name. -/
def child? (d : Directory) (name : String) : Place → Option Place
  | .inside names =>
    if d.holds (names ++ [name]) then some (.inside (names ++ [name])) else none
  | .outside names =>
    let path := names ++ [name]
    if path == nullDevice || standard.contains path then some (.outside path) else none

/-! ### Paths -/

/-- The longest name of a file, in bytes. -/
def longestName : Nat := 255

/-- The longest path, in bytes. -/
def longestPath : Nat := 4095

/-- Follows one component from a place. -/
def enter (d : Directory) (place : Place) (component : String) : Except ReadFailure Place :=
  if (d.file? place).isSome then .error .notDirectory
  else if component = "" ∨ component = "." then .ok place
  else if component = ".." then .ok place.parent
  else if longestName < component.utf8ByteSize then .error .nameTooLong
  else match d.child? component place with
    | some child => .ok child
    | none => .error .notFound

/-- The contents of the file that a path leads to. -/
def read (d : Directory) (path : String) : Except ReadFailure ByteArray := do
  if longestPath < path.utf8ByteSize then throw .nameTooLong
  let start := if path.startsWith "/" then .outside [] else .inside []
  let place ← (components path).foldlM d.enter start
  match d.file? place with
  | some bytes => pure bytes
  | none => throw .isDirectory

end Directory

end ByteByteJump
