import ParamSweep.Value

/-! # Generated values

Rules that stand for lists of values: evenly spaced doubles with both ends, powers with
evenly spaced exponents, and integers in steps up to an end that is left out.
-/

namespace ParamSweep

inductive Generator
  | linspace (start stop : Binary64) (num : UInt64)
  | logspace (start stop : Binary64) (num : UInt64) (base : Binary64)
  | range (start stop step : Int64)
  deriving DecidableEq, Repr

namespace Generator

/-- `num` evenly spaced doubles. The last one is the end itself. -/
def spaced (start stop : Binary64) (num : Nat) : List Binary64 :=
  if num = 0 then []
  else if num = 1 then [start]
  else
    let step := (stop - start) / .ofNat (num - 1)
    (List.range (num - 1)).map (fun i => start + .ofNat i * step) ++ [stop]

/-- The base to the power of evenly spaced doubles. -/
def powers (start stop : Binary64) (num : Nat) (base : Binary64) : List Binary64 :=
  (spaced start stop num).map base.pow

/-- Whether counting in steps has not reached its end. -/
def before (step stop : Int) (n : Int) : Bool :=
  if 0 < step then decide (n < stop) else decide (stop < n)

/-- The integers from one on in steps that are not zero, while they fit in 64 bits. -/
def countFrom (stop step : Int) (hstep : step ≠ 0) (n : Int) : List Int64 :=
  if before step stop n then
    .ofInt n ::
      if Int64.minValue.toInt ≤ n + step ∧ n + step ≤ Int64.maxValue.toInt then
        countFrom stop step hstep (n + step)
      else []
  else []
termination_by (if 0 < step then stop - n else n - stop).toNat
decreasing_by
  rename_i h _
  simp only [before] at h
  split at h <;> simp only [decide_eq_true_eq] at h <;> split <;> omega

/-- The integers of a range; none for a step of zero. -/
def counted? (start stop step : Int64) : Option (List Int64) :=
  if h : step.toInt = 0 then none else some (countFrom stop.toInt step.toInt h start.toInt)

/-- The values of a generator, or why there are none. -/
def values : Generator → Except String (List Value)
  | .linspace start stop num => .ok ((spaced start stop num.toNat).map .float)
  | .logspace start stop num base => .ok ((powers start stop num.toNat base).map .float)
  | .range start stop step =>
    match counted? start stop step with
    | some ns => .ok (ns.map .int)
    | none => .error "range step must be non-zero"

end Generator

end ParamSweep
