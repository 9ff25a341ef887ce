import ParamSweep.Value

/-! # Conditions and repeat rules

A condition compares a parameter with a value: numbers as doubles, strings by their
characters, truth values for being the same or not. Where there is nothing to compare it
does not hold, whatever the comparison. A rule asks for a number of runs, or leaves the
number as it is.
-/

namespace ParamSweep

inductive Comparison
  | eq
  | ne
  | lt
  | le
  | gt
  | ge
  deriving DecidableEq, Repr

namespace Comparison

def accepts : Comparison → Ordering → Bool
  | .eq, o => o == .eq
  | .ne, o => o != .eq
  | .lt, o => o == .lt
  | .le, o => o != .gt
  | .gt, o => o == .gt
  | .ge, o => o != .lt

def symbol : Comparison → String
  | .eq => "=="
  | .ne => "!="
  | .lt => "<"
  | .le => "<="
  | .gt => ">"
  | .ge => ">="

def all : List Comparison := [.eq, .ne, .lt, .le, .gt, .ge]

def ofSymbol? (s : String) : Option Comparison := all.find? (·.symbol == s)

/-- The comparison of a value with another one. -/
def holds (c : Comparison) : Value → Value → Bool
  | .string s, .string t => c.accepts (compare s t)
  | .bool a, .bool b =>
    match c with
    | .eq => a == b
    | .ne => a != b
    | _ => false
  | v, w =>
    match v.asFloat?, w.asFloat? with
    | some x, some y => (x.compare? y).any c.accepts
    | _, _ => false

end Comparison

/-- `parameter comparison value`. -/
structure Condition where
  parameter : String
  comparison : Comparison
  value : Value
  deriving DecidableEq, Repr

/-- A missing parameter meets no condition. -/
def Condition.holds (c : Condition) (a : Assignment) : Bool :=
  (a.get? c.parameter).any fun v => c.comparison.holds v c.value

/-- How often an assignment is to be run; none and zero leave that to others. -/
abbrev Rule := Assignment → Option UInt64

/-- A number of runs under a condition, or always. -/
structure ConditionalCount where
  condition? : Option Condition
  count : UInt64
  deriving DecidableEq, Repr

def ConditionalCount.rule (r : ConditionalCount) : Rule := fun a =>
  if r.condition?.all (·.holds a) then some r.count else none

/-- The number of runs: that of the last rule which asks for any. -/
def Rule.count (default : UInt64) (rules : List Rule) (a : Assignment) : UInt64 :=
  rules.foldl (fun n rule =>
    match rule a with
    | some m => if m = 0 then n else m
    | none => n) default

end ParamSweep
