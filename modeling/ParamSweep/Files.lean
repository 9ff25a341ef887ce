import ParamSweep.NameMap
import ParamSweep.Path

/-! # Files

A tree of directories and files, as far as programs see it that read, write, rename and
remove files by their paths. On the way of a path there must be directories only. A path
that goes on after its last name, if only by a stroke, asks for a directory there.
-/

namespace ParamSweep

/-- Why an operation on files fails. -/
inductive IoError
  | notFound
  | busy
  | notADirectory
  | isADirectory
  | nameTooLong
  | nulInName
  deriving DecidableEq, Repr

def IoError.message : IoError → String
  | .notFound => "No such file or directory (os error 2)"
  | .busy => "Device or resource busy (os error 16)"
  | .notADirectory => "Not a directory (os error 20)"
  | .isADirectory => "Is a directory (os error 21)"
  | .nameTooLong => "File name too long (os error 36)"
  | .nulInName => "file name contained an unexpected NUL byte"

inductive Node
  | file (bytes : List UInt8)
  | directory
  deriving DecidableEq, Repr

/-- The names on the way from the root to a node. -/
abbrev Location := List String

def Location.text (l : Location) : String := l.foldl (fun t name => t ++ "/" ++ name) ""

/-- How many bytes a name may have. -/
def longestName : Nat := 255

/-- How many bytes the text of a path may have. -/
def longestPath : Nat := 4095

/-- Why a path leads nowhere in any tree. -/
def Path.fault? (p : Path) : Option IoError :=
  if p.text.contains '\x00' then some .nulInName
  else if longestPath < p.text.utf8ByteSize then some .nameTooLong
  else if p.text = "" then some .notFound
  else none

/-- Where a path leads: to a name in a directory, whether or not something has the name, or
to the directory itself. -/
structure Place where
  directory : Location
  name? : Option String
  /-- Whether a stroke follows. -/
  stroke : Bool
  deriving DecidableEq, Repr

/-- The nodes of a tree by the texts of their locations; the root is not among them. -/
structure Files where
  nodes : NameMap Node

namespace Files

def empty : Files := ⟨.empty⟩

def node? (fs : Files) (l : Location) : Option Node :=
  if l.isEmpty then some .directory else fs.nodes.get? l.text

def put (fs : Files) (l : Location) (node : Node) : Files := ⟨fs.nodes.insert l.text node⟩

/-- What has a name in a directory. -/
def child? (fs : Files) (directory : Location) (name : String) : Except IoError (Option Node) :=
  if longestName < name.utf8ByteSize then .error .nameTooLong
  else .ok (fs.node? (directory ++ [name]))

/-- Goes on from a directory by parts of a path that lead to directories. -/
def walk (fs : Files) (here : Location) : List String → Except IoError Location
  | [] => .ok here
  | part :: parts =>
    if Path.isIdle part then fs.walk here parts
    else if part = ".." then fs.walk here.dropLast parts
    else
      match fs.child? here part with
      | .error e => .error e
      | .ok none => .error .notFound
      | .ok (some (.file _)) => .error .notADirectory
      | .ok (some .directory) => fs.walk (here ++ [part]) parts

/-- Goes along a path up to its last part. -/
def locate (fs : Files) (p : Path) : Except IoError Place := do
  if let some e := p.fault? then
    throw e
  let stroke := p.getLast? == some ""
  match p.reverse.dropWhile (· == "") with
  | [] => return ⟨[], none, stroke⟩
  | part :: before =>
    if part = "." ∨ part = ".." then return ⟨← fs.walk [] (before.reverse ++ [part]), none, stroke⟩
    else return ⟨← fs.walk [] before.reverse, some part, stroke⟩

/-- The node at a path. -/
def find (fs : Files) (p : Path) : Except IoError Node := do
  let place ← fs.locate p
  match place.name? with
  | none => return .directory
  | some name =>
    match ← fs.child? place.directory name with
    | none => throw .notFound
    | some .directory => return .directory
    | some (.file bytes) => if place.stroke then throw .notADirectory else return .file bytes

/-- Puts a file at a path, instead of a file that is there. -/
def write (fs : Files) (p : Path) (bytes : List UInt8) : Except IoError Files := do
  let place ← fs.locate p
  match place.name?, place.stroke with
  | some name, false =>
    match ← fs.child? place.directory name with
    | some .directory => throw .isADirectory
    | _ => return fs.put (place.directory ++ [name]) (.file bytes)
  | _, _ => throw .isADirectory

/-- Removes a file. -/
def remove (fs : Files) (p : Path) : Except IoError Files := do
  let place ← fs.locate p
  match place.name? with
  | none => throw .isADirectory
  | some name =>
    match ← fs.child? place.directory name with
    | none => throw .notFound
    | some .directory => throw .isADirectory
    | some (.file _) =>
      if place.stroke then throw .notADirectory
      else return ⟨fs.nodes.erase (Location.text (place.directory ++ [name]))⟩

/-- Moves a file to another path, instead of a file that is there. -/
def rename (fs : Files) (p q : Path) : Except IoError Files := do
  let source ← fs.locate p
  let target ← fs.locate q
  match source.name?, target.name? with
  | some old, some new =>
    match ← fs.child? source.directory old with
    | none => throw .notFound
    | some .directory => throw .isADirectory
    | some (.file bytes) =>
      let there ← fs.child? target.directory new
      if source.stroke ∨ target.stroke then
        throw .notADirectory
      if there = some .directory then
        throw .isADirectory
      let l := source.directory ++ [old]
      let m := target.directory ++ [new]
      if l = m then return fs else return ⟨((fs.put m (.file bytes)).nodes.erase (Location.text l))⟩
  | _, _ => throw .busy

/-- Makes the directories on a way that are not there, up to one that cannot be made. -/
def makeWay (fs : Files) (here : Location) : List String → Files
  | [] => fs
  | part :: parts =>
    if Path.isIdle part then fs.makeWay here parts
    else if part = ".." then fs.makeWay here.dropLast parts
    else
      match fs.child? here part with
      | .ok none => (fs.put (here ++ [part]) .directory).makeWay (here ++ [part]) parts
      | .ok (some .directory) => fs.makeWay (here ++ [part]) parts
      | _ => fs

/-- Makes the directories of a path. -/
def makeDirectories (fs : Files) (p : Path) : Files :=
  if p.fault?.isSome then fs else fs.makeWay [] p

/-- The name of a location in a directory. -/
def nameIn? (directory : Location) (location : String) : Option String :=
  match (directory.text ++ "/").toList.isPrefixOf? location.toList with
  | some name => if name.contains '/' then none else some (.ofList name)
  | none => none

/-- The names in a directory. -/
def list (fs : Files) (directory : Location) : List String :=
  fs.nodes.names.filterMap (nameIn? directory)

end Files

end ParamSweep
