import ParamSweep.Binary64

/-! # Shortest decimals

A positive finite double is named by every decimal between the midpoints to its two
neighbours, the midpoints included when its magnitude is even. Of these decimals the
shortest is wanted, and of the shortest the nearest. On the grid of `n`-digit decimals
only the two neighbours of the value can be that decimal, so the grids are tried in
turn; seventeen digits always suffice.
-/

namespace ParamSweep

/-- `coefficient * 10 ^ exponent`. -/
structure Decimal where
  coefficient : Nat
  exponent : Int
  deriving DecidableEq, Repr

/-- Which of two equally near decimals is taken. -/
inductive Tie
  | toEven
  | up
  deriving DecidableEq, Repr

namespace Decimal

/-- The decimal digits of a number, the first one first. -/
def digits (n : Nat) : List Char := Nat.toDigits 10 n

/-- The reals that a magnitude names, as a fraction of `2 * Binary64.one`: the lower
midpoint, the value and the upper midpoint. -/
structure Interval where
  low : Nat
  value : Nat
  high : Nat
  closed : Bool

def interval (magnitude : Nat) : Interval :=
  let below := Binary64.unitsOf (magnitude - 1)
  let here := Binary64.unitsOf magnitude
  let above := Binary64.unitsOf (magnitude + 1)
  ⟨below + here, 2 * here, here + above, magnitude % 2 == 0⟩

/-- The denominator of an interval. -/
def Interval.unit : Nat := 2 * Binary64.one

namespace Interval

/-- The exponent of the leading decimal digit of the value. -/
def leading (i : Interval) : Int :=
  if unit ≤ i.value then (digits (i.value / unit)).length - 1
  else -((digits ((unit - 1) / i.value)).length : Int)

/-- Numerator and denominator of `x / unit / 10 ^ exponent`, with `x` left out of the
numerator. -/
def scale (exponent : Int) : Nat × Nat :=
  if exponent < 0 then (Nat.pow 10 exponent.natAbs, unit)
  else (1, unit * Nat.pow 10 exponent.natAbs)

/-- Whether `coefficient * 10 ^ exponent` names the value. -/
def holds (i : Interval) (exponent : Int) (coefficient : Nat) : Bool :=
  let (num, den) := scale exponent
  let x := coefficient * den
  if i.closed then decide (i.low * num ≤ x ∧ x ≤ i.high * num)
  else decide (i.low * num < x ∧ x < i.high * num)

/-- The better of the value's two neighbours on the grid `10 ^ exponent`, if one of them
names the value. -/
def onGrid? (i : Interval) (tie : Tie) (exponent : Int) : Option Nat :=
  let (num, den) := scale exponent
  let down := i.value * num / den
  let twice := 2 * (i.value * num % den)
  let upIsBetter :=
    decide (den < twice) || (twice == den && (tie == .up || down % 2 == 1))
  match i.holds exponent down, i.holds exponent (down + 1) with
  | true, true => some (if upIsBetter then down + 1 else down)
  | true, false => some down
  | false, true => some (down + 1)
  | false, false => none

/-- Tries the grids of `18 - n` and more digits. -/
def search (i : Interval) (tie : Tie) : Nat → Decimal
  | 0 => ⟨i.value * (scale (i.leading - 17)).1 / (scale (i.leading - 17)).2, i.leading - 17⟩
  | n + 1 =>
    let exponent := i.leading - 16 + n
    match i.onGrid? tie exponent with
    | some coefficient => ⟨coefficient, exponent⟩
    | none => search i tie n

end Interval

/-- The shortest decimal that names a positive finite magnitude. -/
def shortest (tie : Tie) (magnitude : Nat) : Decimal :=
  (interval magnitude).search tie 17

end Decimal

end ParamSweep
