import ParamSweep.Generator
import ParamSweep.Json.Error
import ParamSweep.Sweep.Basic

/-! # Plans

A plan is the written description of a sweep: its parameters with the sources of their
values, the names that are to be bundled, and conditional counts in place of rules.
-/

namespace ParamSweep

/-- Where the values of a parameter come from. -/
inductive Source
  | list (values : List Value)
  | generator (g : Generator)
  | scalar (v : Value)
  deriving DecidableEq, Repr

namespace Source

/-- The values of a source. A scalar is a list of one. -/
def values : Source → Except String (List Value)
  | .list vs => .ok vs
  | .generator g => g.values
  | .scalar v => .ok [v]

end Source

structure Parameter where
  name : String
  source : Source
  deriving DecidableEq, Repr

structure Plan where
  parameters : List Parameter
  bundles : List (List String) := []
  defaultRepeats : UInt64 := 1
  counts : List ConditionalCount := []
  deriving DecidableEq, Repr

/-- Why a plan has no sweep. -/
inductive PlanError
  /-- A parameter has no values. -/
  | noValues (name reason : String)
  | sweep (e : SweepError)
  deriving DecidableEq, Repr

def PlanError.message : PlanError → String
  | .noValues name reason => "Invalid values for " ++ name ++ ": " ++ reason
  | .sweep e => "Invalid scan: " ++ e.message

namespace Plan

/-- The axis of a parameter. -/
def axis (p : Parameter) : Except PlanError Axis :=
  match p.source.values with
  | .ok vs => .ok ⟨p.name, vs⟩
  | .error reason => .error (.noValues p.name reason)

/-- The sweep that a plan describes. All values are found before anything is put together. -/
def build (p : Plan) : Except PlanError Sweep := do
  let axes ← p.parameters.mapM axis
  let s ← (Sweep.ofAxes axes p.bundles).mapError .sweep
  return { s with defaultRepeats := p.defaultRepeats,
                  rules := s.rules ++ p.counts.map ConditionalCount.rule }

end Plan

end ParamSweep
