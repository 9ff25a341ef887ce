/-! # Paths

A path is the list of its parts, which are written with a stroke between each two. The
first part is empty if the path leads from the root. Empty parts and single dots lead
nowhere else, and two dots lead to the directory above.
-/

namespace ParamSweep

/-- The parts of a path between its strokes. -/
abbrev Path := List String

namespace Path

def ofText (s : String) : Path := s.splitOn "/"

def text (p : Path) : String := "/".intercalate p

/-- Whether a part leads nowhere else. -/
def isIdle (part : String) : Bool := part == "" || part == "."

/-- Whether a path leads from the root. -/
def isRooted : Path → Bool
  | first :: _ :: _ => first == ""
  | _ => false

/-- The path that leads on from another one, unless it leads from the root. -/
def join (base p : Path) : Path := if p.isRooted then p else base ++ p

/-- The path without idle parts at its ends. -/
def trim (p : Path) : Path := ((p.dropWhile isIdle).reverse.dropWhile isIdle).reverse

/-- What a path says after another one; the whole path if it does not start like it. -/
def after (p base : Path) : Path :=
  if base.isPrefixOf p then trim (p.drop base.length) else p

/-- A name up to its last dot; a dot at the start does not count. -/
def stem (name : String) : String :=
  match name.toList.reverse.dropWhile (· != '.') with
  | [] | [_] => name
  | _ :: before => .ofList before.reverse

/-- The path with another extension of its last name. The old extension goes first; what
then ends in two dots leads to the directory above, and gets no extension. -/
def withExtension (p : Path) (extension : String) : Path :=
  match p.reverse.dropWhile isIdle with
  | [] => p
  | name :: before =>
    if name = ".." then p
    else if stem name = "." ∧ p.getLast? = some name then before.reverse ++ [".."]
    else before.reverse ++ [stem name ++ "." ++ extension]

end Path

end ParamSweep
