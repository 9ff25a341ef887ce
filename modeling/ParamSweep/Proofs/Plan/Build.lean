import Mathlib.Data.List.Forall2
import ParamSweep.Plan.Basic
import ParamSweep.Proofs.Rule
import ParamSweep.Proofs.Sweep.Bundling
import ParamSweep.Proofs.Sweep.Edits

/-! # What a plan means

All values of a plan are found before anything is put together, so that the first range in
steps of zero is reported before anything else. From there on the plan fails as its axes and
bundles do, or it has a sweep: nested loops over the parameters in the order of their first
entries, with the values of the last ones, and then over the bundles.
-/

namespace ParamSweep

namespace Plan

variable {p : Plan} {axes : List Axis} {s t : Sweep}

/-- How often an assignment is run: as often as the last positive count says whose condition is
met, or the default number of times. -/
def repeats (p : Plan) (a : Assignment) : UInt64 :=
  ((p.counts.reverse.find? (·.applies a)).map (·.count)).getD p.defaultRepeats

def repeated (p : Plan) (s : Sweep) : Sweep :=
  { s with defaultRepeats := p.defaultRepeats,
           rules := s.rules ++ p.counts.map ConditionalCount.rule }

end Plan

end ParamSweep
