import ParamSweep.Axis
import ParamSweep.Rule

/-! # Sweeps

A sweep runs through all combinations of the values on its axes. Parameters with an axis
of their own come first, in the order in which they were added, then the bundles. How
often a combination is run is decided by rules.
-/

namespace ParamSweep

structure Sweep where
  defaultRepeats : UInt64 := 1
  rules : List Rule := []
  axes : List Axis := []
  bundles : List Bundle := []

namespace Sweep

def empty : Sweep := {}

instance : Inhabited Sweep := ⟨empty⟩

/-- Whether a parameter is in a bundle. -/
def isBundled (s : Sweep) (name : String) : Bool := s.bundles.any (·.contains name)

/-- Replaces the axis of the same name, or adds one at the end. -/
def putAxis (axis : Axis) : List Axis → List Axis
  | [] => [axis]
  | a :: as => if a.name = axis.name then axis :: as else a :: putAxis axis as

/-- Gives parameters axes of their own, unless one of them is in a bundle. Like each call that
changes a sweep, it also tells how it ended. -/
def setAxes (s : Sweep) (axes : List Axis) : Except SweepError Unit × Sweep :=
  match axes.find? fun axis => s.isBundled axis.name with
  | some axis => (.error (.bundled axis.name), s)
  | none => (.ok (), { s with axes := axes.foldl (fun as axis => putAxis axis as) s.axes })

/-- Gives a parameter a single value. -/
def setValue (s : Sweep) (name : String) (v : Value) : Except SweepError Unit × Sweep :=
  s.setAxes [⟨name, [v]⟩]

/-- Adds a bundle. Parameters that had axes of their own move into it. -/
def addBundle (s : Sweep) (b : Bundle) : Except SweepError Unit × Sweep :=
  match b.names.find? s.isBundled with
  | some name => (.error (.alreadyBundled name), s)
  | none =>
    (.ok (), { s with axes := s.axes.filter fun axis => !b.contains axis.name,
                      bundles := s.bundles ++ [b] })

/-- The sweep that a call leaves, given up if the call failed. -/
def ofCall : Except SweepError Unit × Sweep → Except SweepError Sweep
  | (.ok (), s) => .ok s
  | (.error e, _) => .error e

def addRule (s : Sweep) (r : Rule) : Sweep := { s with rules := s.rules ++ [r] }

def setDefaultRepeats (s : Sweep) (n : UInt64) : Sweep := { s with defaultRepeats := n }

/-- Takes the axes of some names out of a sweep, behind those taken already. -/
def takeAxes (s : Sweep) (taken : List Axis) : List String → Except SweepError (Sweep × List Axis)
  | [] => .ok (s, taken)
  | name :: names =>
    if taken.any (·.name == name) || s.isBundled name then .error (.alreadyBundled name)
    else
      match Axis.find? s.axes name with
      | some axis =>
        takeAxes { s with axes := s.axes.eraseP (·.name == name) } (taken ++ [axis]) names
      | none => .error (.unknownParameter name)

/-- Bundles parameters that have axes of their own. -/
def bundle (s : Sweep) (names : List String) : Except SweepError Sweep := do
  let (s, axes) ← s.takeAxes [] names
  let b ← Bundle.ofAxes axes
  return { s with bundles := s.bundles ++ [b] }

/-- The sweep over some axes, with some of them in bundles. -/
def ofAxes (axes : List Axis) (bundles : List (List String)) : Except SweepError Sweep := do
  bundles.foldlM bundle (← ofCall (empty.setAxes axes))

/-- The sizes of the axes and then of the bundles. -/
def sizes (s : Sweep) : List Nat := s.axes.map Axis.size ++ s.bundles.map Bundle.size

/-- The greatest number of combinations that is counted. -/
def countLimit : Nat := UInt64.size - 1

/-- The product of sizes, or the limit if it is more. -/
def countOf (sizes : List Nat) : Nat := sizes.foldl (fun n size => min (n * size) countLimit) 1

/-- The number of combinations. -/
def combinationCount (s : Sweep) : Nat := countOf s.sizes

/-- How often an assignment is run. -/
def repeatCount (s : Sweep) (a : Assignment) : UInt64 := Rule.count s.defaultRepeats s.rules a

/-- The text of an axis in a description. -/
def describeAxis (axis : Axis) : String :=
  "(" ++ Text.quoted axis.name ++ ", [" ++
    ", ".intercalate (axis.values.map Value.describe) ++ "])"

def describeAxes (axes : List Axis) : String :=
  "[" ++ ", ".intercalate (axes.map describeAxis) ++ "]"

def describeBundle (b : Bundle) : String :=
  "JointGroup \x7b params: " ++ describeAxes b.axes ++ ", size: " ++ toString b.size ++ " \x7d"

/-- A one-line description; rules are only counted. -/
def describe (s : Sweep) : String :=
  "Scan \x7b default_repeats: " ++ toString s.defaultRepeats.toNat ++
    ", rules: " ++ toString s.rules.length ++
    ", comb_params: " ++ describeAxes s.axes ++
    ", joint_params: [" ++ ", ".intercalate (s.bundles.map describeBundle) ++ "] \x7d"

end Sweep

end ParamSweep
