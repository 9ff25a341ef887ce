import ParamSweep.Files
import ParamSweep.Plan.Json
import ParamSweep.Progress.Json

/-! # Stores

Plans are read from files, and progress is kept in one. A store writes a new file beside
the old one and renames it, so that there is always a whole one.
-/

namespace ParamSweep

/-- Why the contents of a file cannot be read. -/
inductive ReadError
  | io (e : IoError)
  | json (e : Json.Error)
  deriving DecidableEq, Repr

def ReadError.message : ReadError → String
  | .io e => e.message
  | .json e => e.message

inductive StoreError
  | io (e : IoError)
  | contents (e : ReadError)
  deriving DecidableEq, Repr

def StoreError.message : StoreError → String
  | .io e => "IO error: " ++ e.message
  | .contents e => "Serialization error: " ++ e.message

namespace Files

/-- Reads a file that has been found. -/
def decodeNode {α : Type} (decoder : Json.Decoder α) : Node → Except ReadError α
  | .directory => .error (.io .isADirectory)
  | .file bytes => (decoder.decode bytes).mapError .json

end Files

/-- A file that keeps progress. -/
structure Store where
  path : Path
  deriving DecidableEq, Repr

namespace Store

/-- The file that is written before it takes the place of the kept one. -/
def temporary (s : Store) : Path := s.path.withExtension "json.tmp"

/-- What is kept, if anything is. -/
def load (s : Store) (fs : Files) : Except StoreError (Option Progress) :=
  match fs.find s.path with
  | .error .notFound => .ok none
  | .error e => .error (.io e)
  | .ok node => ((Files.decodeNode Progress.decoder node).mapError .contents).map some

/-- What is kept, or new progress under a fingerprint. -/
def loadOrNew (s : Store) (fingerprint : String) (now : Instant) (fs : Files) :
    Except StoreError Progress := do
  return (← s.load fs).getD (.new fingerprint now)

/-- Keeps progress. If that fails, the temporary file may stay. -/
def save (s : Store) (p : Progress) (fs : Files) : Except StoreError Unit × Files :=
  match fs.write s.temporary p.fileBytes with
  | .error e => (.error (.io e), fs)
  | .ok fs =>
    match fs.rename s.temporary s.path with
    | .error e => (.error (.io e), fs)
    | .ok fs => (.ok (), fs)

/-- Keeps nothing any more. -/
def clear (s : Store) (fs : Files) : Except StoreError Files :=
  match fs.remove s.path with
  | .ok fs => .ok fs
  | .error .notFound => .ok fs
  | .error e => .error (.io e)

end Store

/-- Why there is no plan. -/
inductive Plan.LoadError
  | io (e : IoError)
  | contents (e : ReadError)
  deriving DecidableEq, Repr

def Plan.LoadError.message : Plan.LoadError → String
  | .io e => "IO error: " ++ e.message
  | .contents e => "Parse error: " ++ e.message

/-- The plan of a text. -/
def Plan.ofText (s : String) : Except Plan.LoadError Plan :=
  (Plan.decoder.decodeString s).mapError fun e => .contents (.json e)

/-- The plan in a file. -/
def Plan.load (fs : Files) (p : Path) : Except Plan.LoadError Plan :=
  match fs.find p with
  | .error e => .error (.io e)
  | .ok node => (Files.decodeNode Plan.decoder node).mapError .contents

end ParamSweep
