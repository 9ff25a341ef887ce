/-! # Binary64 numbers

A double is its 64-bit word. Without the sign bit the word is the number's
*magnitude*: finite magnitudes are ordered as the numbers are, so comparison is
comparison of integers, and two neighbouring numbers have neighbouring magnitudes.
Every finite number is a whole number of *units*, the unit being the least positive
number `2 ^ -1074`. Arithmetic is exact in units and is rounded once, to the nearest
number and to the even one of two equally near.
-/

namespace ParamSweep

/-- A binary64 number, as its 64-bit word. -/
structure Binary64 where
  word : UInt64
  deriving DecidableEq, Repr

namespace Binary64

/-- The sign bit of a word. -/
def signBit : Nat := 0x8000000000000000

/-- The bit above the 52 of a fraction, which the word leaves out. -/
def hiddenBit : Nat := 0x10000000000000

/-- The magnitude of the infinities; a greater one is not a number. -/
def infinite : Nat := 2047 * hiddenBit

/-- The word without its sign bit. -/
def magnitude (x : Binary64) : Nat := x.word.toNat % signBit

def isNegative (x : Binary64) : Bool := decide (signBit ≤ x.word.toNat)

def isNaN (x : Binary64) : Bool := decide (infinite < x.magnitude)

def isFinite (x : Binary64) : Bool := decide (x.magnitude < infinite)

def isInfinite (x : Binary64) : Bool := x.magnitude == infinite

def isZero (x : Binary64) : Bool := x.magnitude == 0

/-- The number of the given sign and magnitude. -/
def ofMagnitude (negative : Bool) (magnitude : Nat) : Binary64 :=
  ⟨.ofNat (magnitude + if negative then signBit else 0)⟩

def nan : Binary64 := ofMagnitude false (infinite + hiddenBit / 2)

def infinity (negative : Bool) : Binary64 := ofMagnitude negative infinite

def zero (negative : Bool) : Binary64 := ofMagnitude negative 0

/-- The units of a magnitude. The hidden bit counts from the second exponent on; the
formula goes on past the finite magnitudes, so that the greatest has a neighbour. -/
def unitsOf (magnitude : Nat) : Nat :=
  if magnitude < hiddenBit then magnitude
  else (hiddenBit + magnitude % hiddenBit) <<< (magnitude / hiddenBit - 1)

/-- The value of a finite number, in units. -/
def units (x : Binary64) : Int :=
  if x.isNegative then -(unitsOf x.magnitude : Int) else unitsOf x.magnitude

/-- The integer by which numbers are ordered; the two zeros share one. -/
def orderKey (x : Binary64) : Int :=
  if x.isNegative then -(x.magnitude : Int) else x.magnitude

/-- Numeric comparison; what is not a number compares with nothing. -/
def compare? (x y : Binary64) : Option Ordering :=
  if x.isNaN || y.isNaN then none else some (compare x.orderKey y.orderKey)

/-- Numeric equality: the zeros are equal, and what is not a number equals nothing. -/
protected def beq (x y : Binary64) : Bool := x.compare? y == some .eq

instance : BEq Binary64 := ⟨Binary64.beq⟩

/-- The integer nearest to `n / d`, the even one of two. -/
def roundDiv (n d : Nat) : Nat :=
  let q := n / d
  let r := n % d
  if 2 * r < d ∨ (2 * r = d ∧ q % 2 = 0) then q else q + 1

/-- The magnitude nearest to `n / d` units. A quotient of more than 53 bits is rounded at
its 53rd bit, and a carry out of the significand runs into the exponent by itself. -/
def nearest (n d : Nat) : Nat :=
  let shift := (n / d).log2 - 52
  min (shift * hiddenBit + roundDiv n (d <<< shift)) infinite

/-- Units of the number one. -/
def one : Nat := 1 <<< 1074

def ofInt (i : Int) : Binary64 := ofMagnitude (decide (i < 0)) (nearest (i.natAbs * one) 1)

def ofNat (n : Nat) : Binary64 := ofMagnitude false (nearest (n * one) 1)

protected def neg (x : Binary64) : Binary64 := ofMagnitude (!x.isNegative) x.magnitude

protected def add (x y : Binary64) : Binary64 :=
  if x.isNaN || y.isNaN then nan
  else if x.isInfinite then
    if y.isInfinite && x.isNegative != y.isNegative then nan else x
  else if y.isInfinite then y
  else
    let sum := x.units + y.units
    if sum = 0 then zero (x.isNegative && y.isNegative)
    else ofMagnitude (decide (sum < 0)) (nearest sum.natAbs 1)

protected def sub (x y : Binary64) : Binary64 := x.add y.neg

protected def mul (x y : Binary64) : Binary64 :=
  let negative := x.isNegative != y.isNegative
  if x.isNaN || y.isNaN then nan
  else if x.isInfinite || y.isInfinite then
    if x.isZero || y.isZero then nan else infinity negative
  else ofMagnitude negative (nearest (x.units.natAbs * y.units.natAbs) one)

protected def div (x y : Binary64) : Binary64 :=
  let negative := x.isNegative != y.isNegative
  if x.isNaN || y.isNaN then nan
  else if x.isInfinite then if y.isInfinite then nan else infinity negative
  else if y.isInfinite then zero negative
  else if y.isZero then if x.isZero then nan else infinity negative
  else ofMagnitude negative (nearest (x.units.natAbs * one) y.units.natAbs)

instance : Neg Binary64 := ⟨Binary64.neg⟩
instance : Add Binary64 := ⟨Binary64.add⟩
instance : Sub Binary64 := ⟨Binary64.sub⟩
instance : Mul Binary64 := ⟨Binary64.mul⟩
instance : Div Binary64 := ⟨Binary64.div⟩

/-- `x` to the power `y`, rounded as the machine does it. -/
protected def pow (x y : Binary64) : Binary64 :=
  ⟨((Float.ofBits x.word).pow (Float.ofBits y.word)).toBits⟩

/-- The number of a binary32 word; every one of them is a binary64 number. -/
def ofBinary32 (word : UInt32) : Binary64 :=
  let negative := decide (0x80000000 ≤ word.toNat)
  let field := word.toNat / 0x800000 % 0x100
  let fraction := word.toNat % 0x800000
  if field = 255 then if fraction = 0 then infinity negative else nan
  else
    let significand := if field = 0 then fraction else (0x800000 + fraction) <<< (field - 1)
    ofMagnitude negative (nearest (significand <<< 925) 1)

end Binary64

end ParamSweep
