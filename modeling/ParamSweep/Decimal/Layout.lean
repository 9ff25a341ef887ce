import ParamSweep.Decimal.Shortest

/-! # Layout of finite numbers

How the digits of a number are written down is a convention of the text they go into:
between which exponents of the leading digit the number is written positionally, whether
a positive exponent has a sign, and where ties go. A positional number always has a
fraction, so that it is not taken for an integer.
-/

namespace ParamSweep

/-- The conventions of one kind of text. -/
structure Layout where
  /-- The least exponent of the leading digit written positionally. -/
  lowest : Int
  /-- The greatest exponent of the leading digit written positionally. -/
  highest : Int
  /-- The sign of a positive exponent. -/
  plus : List Char
  tie : Tie

namespace Layout

/-- Drops the zeros at the end. -/
def dropZeros (cs : List Char) : List Char := (cs.reverse.dropWhile (· == '0')).reverse

/-- Digits in positional notation, the first of them at `10 ^ exponent`. -/
def positional (digits : List Char) (exponent : Int) : List Char :=
  if exponent < 0 then '0' :: '.' :: (List.replicate (exponent.natAbs - 1) '0' ++ digits)
  else
    let whole := exponent.natAbs + 1
    let fraction := digits.drop whole
    digits.take whole ++ List.replicate (whole - digits.length) '0' ++
      '.' :: (if fraction.isEmpty then ['0'] else fraction)

/-- Digits in scientific notation. -/
def scientific (plus : List Char) (digits : List Char) (exponent : Int) : List Char :=
  let tail := digits.drop 1
  digits.take 1 ++ (if tail.isEmpty then [] else '.' :: tail) ++
    'e' :: ((if exponent < 0 then ['-'] else plus) ++ Decimal.digits exponent.natAbs)

/-- A positive finite magnitude. -/
def positive (layout : Layout) (magnitude : Nat) : List Char :=
  let decimal := Decimal.shortest layout.tie magnitude
  let all := Decimal.digits decimal.coefficient
  let exponent := decimal.exponent + (all.length - 1 : Nat)
  let digits := dropZeros all
  if layout.lowest ≤ exponent ∧ exponent ≤ layout.highest then positional digits exponent
  else scientific layout.plus digits exponent

/-- A finite number. Zero has a sign too. -/
def finite (layout : Layout) (x : Binary64) : List Char :=
  (if x.isNegative then ['-'] else []) ++
    if x.isZero then ['0', '.', '0'] else layout.positive x.magnitude

end Layout

end ParamSweep
