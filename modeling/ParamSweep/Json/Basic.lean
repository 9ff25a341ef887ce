import ParamSweep.Binary64

/-! # JSON values

A number keeps the distinction that its spelling makes: without a fraction and an
exponent it is an integer, otherwise a double.
-/

namespace ParamSweep

namespace Json

inductive Number
  | int (n : Int)
  | double (x : Binary64)
  deriving DecidableEq, Repr

/-- The double of a number; an integer is rounded to one. -/
def Number.toDouble : Number → Binary64
  | .int n => .ofInt n
  | .double x => x

end Json

inductive Json
  | null
  | bool (b : Bool)
  | number (n : Json.Number)
  | string (s : String)
  | array (items : List Json)
  | object (members : List (String × Json))
  deriving Repr

namespace Json

def int (n : Int) : Json := .number (.int n)

def nat (n : Nat) : Json := .number (.int n)

/-- A double; JSON has no number for one that is not finite. -/
def double (x : Binary64) : Json := if x.isFinite then .number (.double x) else .null

end Json

end ParamSweep
