import ParamSweep.Json.Decoder
import ParamSweep.Value

/-! # Values and assignments as JSON

A value is written as the JSON value of its kind; its kind is read off the spelling. An
integer that does not fit in 64 bits with a sign is read as a double. An assignment is an
object.
-/

namespace ParamSweep

open Json (Decoder)

namespace Value

def toJson : Value → Json
  | .bool b => .bool b
  | .int n => .int n.toInt
  | .float x => .double x
  | .string s => .string s

/-- The value of a scalar. -/
def ofScalar? : Json.Tree → Option Value
  | .bool b => some (.bool b)
  | .number (.int n) =>
    if Int64.minValue.toInt ≤ n ∧ n ≤ Int64.maxValue.toInt then some (.int (.ofInt n))
    else some (.float (.ofInt n))
  | .number (.double x) => some (.float x)
  | .string s => some (.string s)
  | _ => none

/-- Reads anything in full before it is judged. -/
def decoder : Decoder Value := fun t => do
  Decoder.check t.fault?
  match ofScalar? t with
  | some v => return v
  | none => Decoder.fail (.noAlternative "ParamValue")

end Value

namespace Assignment

def toJson (a : Assignment) : Json := .object (a.entries.map fun (name, v) => (name, v.toJson))

/-- A name that is given twice keeps its last value. -/
def decoder : Decoder Assignment := fun t => do
  return .ofList (← Decoder.pairs Value.decoder t)

end Assignment

end ParamSweep
