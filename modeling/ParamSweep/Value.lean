import ParamSweep.Binary64
import ParamSweep.Decimal.Layout
import ParamSweep.NameMap
import ParamSweep.Text.Quoted

/-! # Values and assignments

A parameter takes truth values, integers, doubles and strings. An assignment gives a value
to each of some parameters.
-/

namespace ParamSweep

inductive Value
  | bool (b : Bool)
  | int (n : Int64)
  | float (x : Binary64)
  | string (s : String)
  deriving DecidableEq, Repr

namespace Value

/-- The value as a number; an integer is rounded to a double. -/
def asFloat? : Value → Option Binary64
  | .int n => some (.ofInt n.toInt)
  | .float x => some x
  | _ => none

def asInt? : Value → Option Int64
  | .int n => some n
  | _ => none

def asBool? : Value → Option Bool
  | .bool b => some b
  | _ => none

def asString? : Value → Option String
  | .string s => some s
  | _ => none

/-- Equality of values: the kinds must agree, and doubles are compared as numbers. -/
protected def beq : Value → Value → Bool
  | .bool a, .bool b => a == b
  | .int m, .int n => m == n
  | .float x, .float y => x == y
  | .string s, .string t => s == t
  | _, _ => false

instance : BEq Value := ⟨Value.beq⟩

def isNaN : Value → Bool
  | .float x => x.isNaN
  | _ => false

/-- The layout of doubles in the texts of values. -/
def layout : Layout where
  lowest := -4
  highest := 15
  plus := []
  tie := .up

def floatText (x : Binary64) : String :=
  if x.isNaN then "NaN"
  else if x.isInfinite then if x.isNegative then "-inf" else "inf"
  else .ofList (layout.finite x)

/-- The bare text of a value. A double is told from an integer by its fraction. -/
def text : Value → String
  | .bool b => if b then "true" else "false"
  | .int n => toString n.toInt
  | .float x => floatText x
  | .string s => s

/-- The text of a value with its kind. -/
def describe : Value → String
  | .bool b => "Bool(" ++ text (.bool b) ++ ")"
  | .int n => "Int(" ++ text (.int n) ++ ")"
  | .float x => "Float(" ++ text (.float x) ++ ")"
  | .string s => "Str(" ++ Text.quoted s ++ ")"

end Value

/-- Values of parameters, by name. -/
abbrev Assignment := NameMap Value

namespace Assignment

def float? (a : Assignment) (name : String) : Option Binary64 := (a.get? name).bind Value.asFloat?

def int? (a : Assignment) (name : String) : Option Int64 := (a.get? name).bind Value.asInt?

def bool? (a : Assignment) (name : String) : Option Bool := (a.get? name).bind Value.asBool?

def string? (a : Assignment) (name : String) : Option String := (a.get? name).bind Value.asString?

/-- Equality of assignments: the same names with equal values. -/
protected def beq (a b : Assignment) : Bool :=
  a.entries.length == b.entries.length &&
    (a.entries.zip b.entries).all fun (x, y) => x.1 == y.1 && x.2 == y.2

/-- The values in the order of their names. -/
def text (a : Assignment) : String := " ".intercalate (a.values.map Value.text)

end Assignment

end ParamSweep
