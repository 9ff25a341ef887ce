import ParamSweep.Value

/-! # Axes and bundles

An axis gives a parameter its values in order. A bundle is a number of parameters that
move together, index by index: all of them have the same number of values, and together
they are one axis of a sweep.
-/

namespace ParamSweep

structure Axis where
  name : String
  values : List Value
  deriving DecidableEq, Repr

/-- Why a sweep cannot be built. -/
inductive SweepError
  /-- The values of a parameter are not as many as those of the first one of its bundle. -/
  | sizeMismatch (name first : String) (size firstSize : Nat)
  | unknownParameter (name : String)
  /-- A parameter is wanted in a bundle and is in one already. -/
  | alreadyBundled (name : String)
  | emptyBundle
  /-- A parameter is wanted on an axis of its own and is in a bundle. -/
  | bundled (name : String)
  deriving DecidableEq, Repr

def SweepError.message : SweepError → String
  | .sizeMismatch name first size firstSize =>
    "Param " ++ name ++ " set to vary jointly with " ++ first ++ ", but their sizes (" ++
      toString size ++ "," ++ toString firstSize ++ ") do not match"
  | .unknownParameter name => "Joint list names unknown parameter: " ++ name
  | .alreadyBundled name => "Parameter " ++ name ++ " already varies jointly"
  | .emptyBundle => "Joint group must name at least one parameter"
  | .bundled name => "Parameter " ++ name ++ " varies jointly and cannot be set combinatorially"

namespace Axis

def size (axis : Axis) : Nat := axis.values.length

/-- The value at an index, under the name of the axis. -/
def binding? (axis : Axis) (i : Nat) : Option (String × Value) :=
  axis.values[i]?.map fun v => (axis.name, v)

/-- The axis with a name. -/
def find? (axes : List Axis) (name : String) : Option Axis := axes.find? (·.name == name)

end Axis

/-- Parameters that move together. -/
structure Bundle where
  axes : List Axis
  deriving DecidableEq, Repr

namespace Bundle

def names (b : Bundle) : List String := b.axes.map (·.name)

def contains (b : Bundle) (name : String) : Bool := b.axes.any (·.name == name)

/-- The number of values of each parameter. -/
def size (b : Bundle) : Nat := (b.axes.head?.map Axis.size).getD 0

/-- The first name that occurred before. -/
def repeated? : List String → List String → Option String
  | _, [] => none
  | seen, name :: names => if name ∈ seen then some name else repeated? (name :: seen) names

/-- The bundle of some axes with different names and equal sizes. -/
def ofAxes (axes : List Axis) : Except SweepError Bundle :=
  match repeated? [] (axes.map (·.name)), axes with
  | some name, _ => .error (.alreadyBundled name)
  | none, [] => .error .emptyBundle
  | none, first :: _ =>
    match axes.find? (·.size != first.size) with
    | some axis => .error (.sizeMismatch axis.name first.name axis.size first.size)
    | none => .ok ⟨axes⟩

/-- The values at an index, under the names of the parameters. -/
def bindings (b : Bundle) (i : Nat) : List (String × Value) := b.axes.filterMap (·.binding? i)

end Bundle

end ParamSweep
