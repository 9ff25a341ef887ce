import ParamSweep.Json.Tree

/-! # Numerals

A numeral is read digit by digit into a significand of 64 bits. A whole digit that no
longer fits is dropped with all whole digits after it, each of them raising the exponent
by one; a digit of the fraction that no longer fits is dropped with all after it. The
double is the significand, rounded, and then multiplied or divided by a rounded power of
ten: up to three roundings, so not always the double that is nearest to the numeral.
-/

namespace ParamSweep.Json

/-- The parts of a numeral; digits are numbers below ten. -/
structure Numeral where
  negative : Bool
  whole : List Nat
  fraction : Option (List Nat)
  exponent : Option Int
  deriving DecidableEq, Repr

namespace Numeral

def isDigit (b : UInt8) : Bool := 0x30 ≤ b && b ≤ 0x39

/-- The leading digits of a text. -/
def leadingDigits (bs : List UInt8) : List Nat := (bs.takeWhile isDigit).map (·.toNat - 0x30)

def afterDigits (bs : List UInt8) : List UInt8 := bs.dropWhile isDigit

/-- What is wrong where a digit is missing: skipping does not tell the end of the text from
another character. -/
def missingDigit : List UInt8 → Fault × Fault
  | [] => (.endOfScalar, .malformed)
  | _ :: _ => (.malformed, .malformed)

def ofDigits (ds : List Nat) : Nat := ds.foldl (fun n d => 10 * n + d) 0

/-- Whether a number is negative, and what follows its sign. -/
def scanSign : List UInt8 → Bool × List UInt8
  | 0x2d :: bs => (true, bs)
  | 0x2b :: bs => (false, bs)
  | bs => (false, bs)

/-- The exponent after its letter. -/
def scanExponent (bs : List UInt8) : Except (Fault × Fault) (Int × List UInt8) :=
  let (negative, bs) := scanSign bs
  match leadingDigits bs with
  | [] => .error (missingDigit bs)
  | d :: ds =>
    let n := ofDigits (d :: ds)
    .ok (if negative then -(n : Int) else n, afterDigits bs)

def scanExponent? : List UInt8 → Except (Fault × Fault) (Option Int × List UInt8)
  | [] => .ok (none, [])
  | b :: bs =>
    if b == 0x65 || b == 0x45 then
      match scanExponent bs with
      | .ok (e, bs) => .ok (some e, bs)
      | .error f => .error f
    else .ok (none, b :: bs)

def scanFraction? : List UInt8 → Except (Fault × Fault) (Option (List Nat) × List UInt8)
  | 0x2e :: bs =>
    match leadingDigits bs with
    | [] => .error (missingDigit bs)
    | d :: ds => .ok (some (d :: ds), afterDigits bs)
  | bs => .ok (none, bs)

/-- The whole part; a zero stands alone. -/
def scanWhole (bs : List UInt8) : Except (Fault × Fault) (List Nat × List UInt8) :=
  match leadingDigits bs with
  | [] => .error (missingDigit bs)
  | d :: ds =>
    if d = 0 ∧ ds ≠ [] then .error (.malformed, .malformed) else .ok (d :: ds, afterDigits bs)

/-- The numeral at the start of a text, after its sign. -/
def scan (negative : Bool) (bs : List UInt8) : Except (Fault × Fault) (Numeral × List UInt8) :=
  match scanWhole bs with
  | .error f => .error f
  | .ok (whole, bs) =>
    match scanFraction? bs with
    | .error f => .error f
    | .ok (fraction, bs) =>
      match scanExponent? bs with
      | .error f => .error f
      | .ok (exponent, bs) => .ok (⟨negative, whole, fraction, exponent⟩, bs)

theorem length_afterDigits_le (bs : List UInt8) : (afterDigits bs).length ≤ bs.length :=
  (List.dropWhile_suffix _).length_le

theorem length_afterDigits_lt {bs : List UInt8} {d : Nat} {ds : List Nat}
    (h : leadingDigits bs = d :: ds) : (afterDigits bs).length < bs.length := by
  cases bs with
  | nil => simp [leadingDigits] at h
  | cons b bs =>
    by_cases hb : isDigit b
    · simpa [afterDigits, hb] using Nat.lt_succ_of_le (length_afterDigits_le bs)
    · simp [leadingDigits, hb] at h

theorem length_scanWhole_lt {bs r : List UInt8} {ds : List Nat}
    (h : scanWhole bs = .ok (ds, r)) : r.length < bs.length := by
  unfold scanWhole at h
  split at h
  · simp at h
  · rename_i heq
    split at h <;> simp only [Except.ok.injEq, Prod.mk.injEq, reduceCtorEq] at h
    exact h.2 ▸ length_afterDigits_lt heq

theorem length_scanFraction?_le {bs r : List UInt8} {ds : Option (List Nat)}
    (h : scanFraction? bs = .ok (ds, r)) : r.length ≤ bs.length := by
  unfold scanFraction? at h
  split at h
  · rename_i bs
    split at h <;> simp only [Except.ok.injEq, Prod.mk.injEq, reduceCtorEq] at h
    have := length_afterDigits_le bs
    simp only [← h.2, List.length_cons]
    omega
  · simp_all

theorem length_scanSign_le (bs : List UInt8) : (scanSign bs).2.length ≤ bs.length := by
  unfold scanSign
  split <;> simp

theorem length_scanExponent_le {bs r : List UInt8} {e : Int}
    (h : scanExponent bs = .ok (e, r)) : r.length ≤ bs.length := by
  simp only [scanExponent] at h
  split at h
  · simp at h
  · simp only [Except.ok.injEq, Prod.mk.injEq] at h
    exact h.2 ▸ Nat.le_trans (length_afterDigits_le _) (length_scanSign_le bs)

theorem length_scanExponent?_le {bs r : List UInt8} {e : Option Int}
    (h : scanExponent? bs = .ok (e, r)) : r.length ≤ bs.length := by
  unfold scanExponent? at h
  split at h
  · simp_all
  · split at h
    · split at h <;> simp only [Except.ok.injEq, Prod.mk.injEq, reduceCtorEq] at h
      have := length_scanExponent_le ‹scanExponent _ = .ok _›
      simp only [← h.2, List.length_cons]
      omega
    · simp_all

/-- A numeral takes at least one byte. -/
theorem length_scan_lt {negative : Bool} {bs r : List UInt8} {n : Numeral}
    (h : scan negative bs = .ok (n, r)) : r.length < bs.length := by
  unfold scan at h
  split at h
  · simp at h
  · rename_i hw
    split at h
    · simp at h
    · rename_i hf
      split at h <;> simp only [Except.ok.injEq, Prod.mk.injEq, reduceCtorEq] at h
      rename_i he
      exact h.2 ▸ Nat.lt_of_le_of_lt (length_scanExponent?_le he)
        (Nat.lt_of_le_of_lt (length_scanFraction?_le hf) (length_scanWhole_lt hw))

/-- Appends digits to a significand while it has 64 bits; with the number of digits left. -/
def append (significand : Nat) : List Nat → Nat × Nat
  | [] => (significand, 0)
  | d :: ds =>
    if 10 * significand + d < UInt64.size then append (10 * significand + d) ds
    else (significand, ds.length + 1)

/-- The double nearest to a power of ten. -/
def tenTo (n : Nat) : Binary64 := .ofNat (Nat.pow 10 n)

/-- `x / 10 ^ e`, in steps of at most 308 and no more than `n` of them full. -/
def divide (x : Binary64) (e : Nat) : Nat → Binary64
  | 0 => x / tenTo e
  | n + 1 =>
    if e ≤ 308 then x / tenTo e
    else if x.isZero then x
    else divide (x / tenTo 308) (e - 308) n

/-- `significand * 10 ^ e`; none if that is too large for a double. -/
def scaled? (significand : Nat) (e : Int) : Option Binary64 :=
  let x := Binary64.ofNat significand
  if e < 0 then some (divide x e.natAbs (e.natAbs / 308))
  else if e ≤ 308 then
    let y := x * tenTo e.toNat
    if y.isInfinite then none else some y
  else if x.isZero then some x
  else none

def signed (negative : Bool) (x : Binary64) : Binary64 := if negative then -x else x

/-- The double of a numeral; none if it is out of range. -/
def double? (n : Numeral) : Option Binary64 :=
  let (s, dropped) := append 0 n.whole
  let fraction := n.fraction.getD []
  let (s, unused) := append s fraction
  let e := n.exponent.getD 0 + dropped - (fraction.length - unused : Nat)
  (scaled? s e).map (signed n.negative)

/-- The integer of a numeral without fraction and exponent that fits in 64 bits, with or
without a sign. There is no negative zero among the integers. -/
def int? (n : Numeral) : Option Int :=
  match n.fraction, n.exponent, append 0 n.whole with
  | none, none, (s, 0) =>
    if !n.negative then some s
    else if 0 < s ∧ s ≤ 0x8000000000000000 then some (-(s : Int))
    else none
  | _, _, _ => none

/-- The number of a numeral; none if it is out of range. -/
def number? (n : Numeral) : Option Number :=
  match n.int? with
  | some i => some (.int i)
  | none => n.double?.map .double

end Numeral

end ParamSweep.Json
