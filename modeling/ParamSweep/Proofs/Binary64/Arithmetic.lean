import Mathlib.Tactic.Ring
import ParamSweep.Proofs.Binary64.Nearest

/-! # Results of arithmetic

Sums and differences are rounded once in units, and so are products with whole numbers and
quotients by them, as far as these are doubles themselves. What is rounded goes up by one part in
2 ^ 53 at most, unless it is as small as a significand. It becomes infinite only half a step beyond
the greatest finite number.
-/

namespace ParamSweep.Binary64

variable {x y : Binary64}

/-! ### Rounding -/

theorem roundDiv_mul_left {k : Nat} (hk : 0 < k) (n d : Nat) :
    roundDiv (k * n) (k * d) = roundDiv n d := by
  have hlt : 2 * (k * (n % d)) < k * d ↔ 2 * (n % d) < d := by
    rw [Nat.mul_left_comm, Nat.mul_lt_mul_left hk]
  have heq : 2 * (k * (n % d)) = k * d ↔ 2 * (n % d) = d := by
    rw [Nat.mul_left_comm, Nat.mul_right_inj (Nat.ne_of_gt hk)]
  simp only [roundDiv, Nat.mul_div_mul_left _ _ hk, Nat.mul_mod_mul_left, hlt, heq]

theorem nearest_mul_left {k : Nat} (hk : 0 < k) (n d : Nat) :
    nearest (k * n) (k * d) = nearest n d := by
  have hshift (s : Nat) : (k * d) <<< s = k * d <<< s := by
    rw [Nat.shiftLeft_eq, Nat.shiftLeft_eq, Nat.mul_assoc]
  simp only [nearest, Nat.mul_div_mul_left _ _ hk, hshift, roundDiv_mul_left hk]

theorem mul_roundDiv_le (n d : Nat) : 2 * (d * roundDiv n d) ≤ 2 * n + d := by
  have hn : d * (n / d) + n % d = n := Nat.div_add_mod n d
  simp only [roundDiv]
  split
  · omega
  · rw [Nat.mul_add]
    omega

theorem nearest_of_lt {n d : Nat} (h : n / d < 2 * hiddenBit) : nearest n d = roundDiv n d := by
  have hlog : (n / d).log2 - 52 = 0 := by
    by_cases h0 : n / d = 0
    · rw [h0]
      rfl
    · have : (n / d).log2 < 53 := (Nat.log2_lt h0).mpr h
      omega
  have hle : roundDiv n d ≤ infinite := by
    have hb : 2 * hiddenBit + 1 ≤ infinite := by decide
    have hone : roundDiv n d ≤ n / d + 1 := by
      simp only [roundDiv]
      split <;> omega
    omega
  rw [nearest, hlog, Nat.zero_mul, Nat.zero_add, Nat.shiftLeft_zero, Nat.min_eq_left hle]

theorem nearest_zero (n : Nat) : nearest 0 n = 0 := by
  rw [nearest_of_lt (by rw [Nat.zero_div]; decide), roundDiv, Nat.zero_div, Nat.zero_mod]
  split <;> omega

theorem mul_unitsOf_nearest_le {n d : Nat} (hd : 0 < d) (h : 2 * hiddenBit ≤ n / d) :
    2 * hiddenBit * (d * unitsOf (nearest n d)) ≤ (2 * hiddenBit + 1) * n := by
  have hb : 0 < hiddenBit := by decide
  have h0 : n / d ≠ 0 := by omega
  have hlog : 53 ≤ (n / d).log2 := (Nat.le_log2 h0).mpr h
  generalize hs : (n / d).log2 - 52 = s
  have hdiv : n / d <<< s = n / d / 1 <<< s := by
    rw [Nat.shiftLeft_eq, Nat.shiftLeft_eq, Nat.one_mul, Nat.div_div_eq_div_mul]
  obtain ⟨hlow, hhigh⟩ := significand_below (n / d)
  rw [excess, hs, ← hdiv] at hlow hhigh
  have hlow := hlow.resolve_left (by omega)
  have hr : hiddenBit ≤ roundDiv n (d <<< s) ∧ roundDiv n (d <<< s) ≤ 2 * hiddenBit := by
    simp only [roundDiv]
    split <;> omega
  have hunits : unitsOf (nearest n d) ≤ roundDiv n (d <<< s) <<< s := by
    rw [← unitsOf_significand (.inr hr.1) hr.2]
    refine unitsOf_mono ?_
    simp only [nearest, hs]
    exact Nat.min_le_left _ _
  -- The last place is one part in 2 ^ 52 at most.
  have hplace : hiddenBit * d <<< s ≤ n := (Nat.le_div_iff_mul_le (by
    rw [Nat.shiftLeft_eq]
    exact Nat.mul_pos hd (Nat.two_pow_pos s))).mp hlow
  calc 2 * hiddenBit * (d * unitsOf (nearest n d))
      ≤ 2 * hiddenBit * (d * roundDiv n (d <<< s) <<< s) :=
        Nat.mul_le_mul_left _ (Nat.mul_le_mul_left _ hunits)
    _ = hiddenBit * (2 * (d <<< s * roundDiv n (d <<< s))) := by
        rw [Nat.shiftLeft_eq (roundDiv _ _), Nat.shiftLeft_eq d]
        ring
    _ ≤ hiddenBit * (2 * n + d <<< s) := Nat.mul_le_mul_left _ (mul_roundDiv_le _ _)
    _ ≤ (2 * hiddenBit + 1) * n := by
        rw [Nat.mul_add, Nat.add_mul, Nat.one_mul, Nat.mul_left_comm, ← Nat.mul_assoc]
        exact Nat.add_le_add_left hplace _

theorem unitsOf_of_le {n : Nat} (h : n ≤ 2 * hiddenBit) : unitsOf n = n := by
  have hn := unitsOf_significand (.inl rfl) h
  rwa [Nat.zero_mul, Nat.zero_add, Nat.shiftLeft_zero] at hn

/-- The size of a double is rounded to this double. -/
theorem nearest_unitsOf {m : Nat} (h : m < infinite) : nearest (unitsOf m) 1 = m := by
  have hle : unitsOf m ≤ 1 * greatest := by
    rw [Nat.one_mul]
    exact unitsOf_le h
  have hnear := (natAbs_nearest_le (nearest_lt_infinite Nat.one_pos hle) m).1
  rw [Int.sub_self, Int.natAbs_zero] at hnear
  exact unitsOf_strictMono.injective (by omega)

/-- The least size that is rounded to infinity. -/
def boundless : Nat := greatest + 1 <<< 2044

theorem nearest_lt_infinite_iff {n : Nat} : nearest n 1 < infinite ↔ n < boundless := by
  have hlast : nearest (boundless - 1) 1 < infinite := by decide +kernel
  have hfirst : nearest boundless 1 = infinite := by decide +kernel
  constructor
  · intro h
    by_contra hn
    have := nearest_mono (Nat.le_of_not_lt hn)
    omega
  · intro h
    exact Nat.lt_of_le_of_lt (nearest_mono (Nat.le_sub_one_of_lt h)) hlast

/-- A double that is less than what a size is rounded to is not above this size. -/
theorem unitsOf_le_of_lt_nearest {m n : Nat} (hm : m < infinite)
    (h : unitsOf m < unitsOf (nearest n 1)) : unitsOf m ≤ n := by
  by_contra hn
  have hle := nearest_mono (Nat.le_of_not_le hn)
  rw [nearest_unitsOf hm] at hle
  exact Nat.not_le_of_lt h (unitsOf_mono hle)

theorem units_add_le (hy : y.isFinite = true) (h : x.units < y.units) :
    x.units + (1 <<< 2045 : Nat) ≤ greatest := by
  have hy' : y.units ≤ unitsOf y.magnitude := by
    rw [← natAbs_units]
    omega
  have hstep : unitsOf (infinite - 2) + 1 <<< 2045 = greatest := by decide +kernel
  have hx' : x.units ≤ unitsOf (infinite - 2) := by
    rw [units] at h ⊢
    split
    · omega
    · next hs =>
      rw [if_neg hs] at h
      have hlt : unitsOf x.magnitude < unitsOf y.magnitude := by omega
      have hm : x.magnitude < y.magnitude := unitsOf_strictMono.lt_iff_lt.mp hlt
      have hfinite : y.magnitude < infinite := of_decide_eq_true hy
      exact Int.ofNat_le.mpr (unitsOf_mono (show x.magnitude ≤ infinite - 2 by omega))
  generalize 1 <<< 2045 = g at *
  omega

theorem isNegative_nearest (negative : Bool) (n d : Nat) :
    (ofMagnitude negative (nearest n d)).isNegative = negative :=
  isNegative_ofMagnitude _ (Nat.lt_of_le_of_lt (Nat.min_le_right _ _) (by decide))

/-! ### Sums -/

theorem add_eq (hx : x.isFinite = true) (hy : y.isFinite = true) :
    x + y = if x.units + y.units = 0 then zero (x.isNegative && y.isNegative)
      else ofMagnitude (decide (x.units + y.units < 0)) (nearest (x.units + y.units).natAbs 1) := by
  obtain ⟨hxn, hxi⟩ := isFinite_iff.mp hx
  obtain ⟨hyn, hyi⟩ := isFinite_iff.mp hy
  show x.add y = _
  simp [Binary64.add, hxn, hyn, hxi, hyi]

theorem magnitude_add (hx : x.isFinite = true) (hy : y.isFinite = true) :
    (x + y).magnitude = nearest (x.units + y.units).natAbs 1 := by
  rw [add_eq hx hy]
  split
  · next hzero =>
    rw [hzero]
    exact magnitude_ofMagnitude _ (by decide)
  · exact magnitude_nearest _ _ _

theorem isNegative_add (hx : x.isFinite = true) (hy : y.isFinite = true)
    (h : x.units + y.units ≠ 0) : (x + y).isNegative = decide (x.units + y.units < 0) := by
  rw [add_eq hx hy, if_neg h, isNegative_nearest]

theorem isFinite_add_iff (hx : x.isFinite = true) (hy : y.isFinite = true) :
    (x + y).isFinite = true ↔ (x.units + y.units).natAbs < boundless := by
  rw [← nearest_lt_infinite_iff, ← magnitude_add hx hy]
  exact decide_eq_true_iff

theorem isNaN_of_isInfinite (hx : x.isInfinite = true) : x.isNaN = false := by
  rw [isNaN, beq_iff_eq.mp hx]
  exact decide_eq_false (Nat.lt_irrefl _)

theorem add_of_isInfinite (hx : x.isFinite = true) (hy : y.isInfinite = true) : x + y = y := by
  obtain ⟨hxn, hxi⟩ := isFinite_iff.mp hx
  show x.add y = y
  simp [Binary64.add, hxn, isNaN_of_isInfinite hy, hxi, hy]

theorem add_of_isNaN (hy : y.isNaN = true) : (x + y).isNaN = true := by
  have hnan : x + y = nan := by
    show x.add y = nan
    simp [Binary64.add, hy]
  rw [hnan]
  decide

theorem isNaN_add (hx : x.isFinite = true) (hy : y.isNaN = false) : (x + y).isNaN = false := by
  cases hinf : y.isInfinite with
  | true => rwa [add_of_isInfinite hx hinf]
  | false =>
    rw [isNaN, magnitude_add hx (isFinite_iff.mpr ⟨hy, hinf⟩)]
    exact decide_eq_false (Nat.not_lt.mpr (Nat.min_le_right _ _))

theorem units_of_isZero (hx : x.isZero = true) : x.units = 0 := by
  have hm : x.magnitude = 0 := beq_iff_eq.mp hx
  rw [units, hm, unitsOf_of_le (Nat.zero_le _)]
  simp

theorem isFinite_of_isZero (hx : x.isZero = true) : x.isFinite = true := by
  rw [isFinite, beq_iff_eq.mp hx]
  decide

theorem isNegative_eq (h : x.units ≠ 0) : x.isNegative = decide (x.units < 0) := by
  rw [units] at h ⊢
  cases hs : x.isNegative <;> simp only [hs, Bool.false_eq_true, if_false, if_true] at h ⊢
  · exact (decide_eq_false (by omega)).symm
  · exact (decide_eq_true (by omega)).symm

theorem ofMagnitude_self (x : Binary64) : ofMagnitude x.isNegative x.magnitude = x := by
  have hm : x.magnitude < signBit := Nat.mod_lt _ (by decide)
  exact eq_of_magnitude (isNegative_ofMagnitude _ hm) (magnitude_ofMagnitude _ hm)

theorem add_beq_self (hx : x.isFinite = true) (hy : y.isZero = true) : (x + y == x) = true := by
  have hxn : x.isNaN = false := (isFinite_iff.mp hx).1
  have hsum : x.units + y.units = x.units := by rw [units_of_isZero hy, Int.add_zero]
  have hadd := add_eq hx (isFinite_of_isZero hy)
  rw [hsum] at hadd
  by_cases hzero : x.units = 0
  · rw [if_pos hzero] at hadd
    have hx0 : x.isZero = true := by
      have hm : unitsOf x.magnitude = unitsOf 0 := by
        rw [← natAbs_units, hzero]
        rfl
      exact beq_iff_eq.mpr (unitsOf_strictMono.injective hm)
    have hz (negative : Bool) : (zero negative).isZero = true ∧ (zero negative).isNaN = false := by
      cases negative <;> decide
    rw [hadd]
    exact (beq_iff (hz _).2 hxn).mpr (.inr ⟨(hz _).1, hx0⟩)
  · rw [if_neg hzero, natAbs_units, nearest_unitsOf (of_decide_eq_true hx), ← isNegative_eq hzero,
      ofMagnitude_self] at hadd
    rw [hadd]
    exact (beq_iff hxn hxn).mpr (.inl rfl)

/-! ### Differences -/

theorem units_neg (hx : x.isFinite = true) : (-x).units = -x.units := by
  have hm : x.magnitude < signBit := Nat.lt_trans (of_decide_eq_true hx) (by decide)
  have hneg : -x = ofMagnitude (!x.isNegative) x.magnitude := rfl
  rw [units, hneg, isNegative_ofMagnitude _ hm, magnitude_ofMagnitude _ hm, units]
  cases x.isNegative <;> simp

theorem magnitude_sub (hx : x.isFinite = true) (hy : y.isFinite = true) :
    (x - y).magnitude = nearest (x.units - y.units).natAbs 1 := by
  have hsub : x - y = x + -y := rfl
  rw [hsub, magnitude_add hx (isFinite_neg hy), units_neg hy, Int.sub_eq_add_neg]

theorem isNegative_sub (hx : x.isFinite = true) (hy : y.isFinite = true)
    (h : x.units - y.units ≠ 0) : (x - y).isNegative = decide (x.units - y.units < 0) := by
  have hsub : x - y = x + -y := rfl
  rw [Int.sub_eq_add_neg, ← units_neg hy] at h ⊢
  exact isNegative_add hx (isFinite_neg hy) h

theorem isFinite_sub_iff (hx : x.isFinite = true) (hy : y.isFinite = true) :
    (x - y).isFinite = true ↔ (x.units - y.units).natAbs < boundless := by
  have hsub : x - y = x + -y := rfl
  rw [hsub, isFinite_add_iff hx (isFinite_neg hy), units_neg hy, Int.sub_eq_add_neg]

theorem isNaN_sub (hx : x.isFinite = true) (hy : y.isFinite = true) : (x - y).isNaN = false :=
  isNaN_add hx (isFinite_iff.mp (isFinite_neg hy)).1

/-! ### Whole numbers -/

theorem unitsOf_ofNat {n : Nat} (h : n ≤ 2 * hiddenBit) :
    unitsOf (ofNat n).magnitude = n * one := by
  obtain ⟨m, hm⟩ := exists_unitsOf_eq h
  have hfinite : (ofNat n).isFinite = true := isFinite_ofNat (Nat.lt_of_le_of_lt h (by decide))
  have hmagnitude : (ofNat n).magnitude = nearest (n * one) 1 := magnitude_nearest _ _ _
  rw [isFinite, hmagnitude] at hfinite
  have hnear := (natAbs_nearest_le (of_decide_eq_true hfinite) m).1
  rw [hm, Int.sub_self, Int.natAbs_zero] at hnear
  rw [hmagnitude]
  omega

theorem isNegative_ofNat (n : Nat) : (ofNat n).isNegative = false :=
  isNegative_nearest _ _ _

theorem oneMagnitude_le_ofNat {n : Nat} (h : 0 < n) : oneMagnitude ≤ (ofNat n).magnitude := by
  have hmagnitude : (ofNat n).magnitude = nearest (n * one) 1 := magnitude_nearest _ _ _
  rw [hmagnitude]
  exact le_nearest (Nat.le_mul_of_pos_left one h)

theorem isZero_ofNat {n : Nat} (h : 0 < n) : (ofNat n).isZero = false := by
  have hone : 0 < oneMagnitude := by decide
  have := oneMagnitude_le_ofNat h
  exact beq_eq_false_iff_ne.mpr (by omega)

section Whole

variable {n : Nat}

theorem ofNat_mul (hn : n ≤ 2 * hiddenBit) (hx : x.isFinite = true) :
    (ofNat n * x).isNegative = x.isNegative ∧
      (ofNat n * x).magnitude = nearest (n * unitsOf x.magnitude) 1 := by
  have hfinite : (ofNat n).isFinite = true := isFinite_ofNat (Nat.lt_of_le_of_lt hn (by decide))
  have hone : 0 < one := by decide +kernel
  have hnearest := nearest_mul_left hone (n * unitsOf x.magnitude) 1
  rw [Nat.mul_one] at hnearest
  rw [mul_eq hfinite hx, unitsOf_ofNat hn, isNegative_ofNat, Nat.mul_comm n, Nat.mul_assoc,
    hnearest]
  exact ⟨(isNegative_nearest _ _ _).trans (Bool.false_bne _), magnitude_nearest _ _ _⟩

theorem div_ofNat (hpos : 0 < n) (hn : n ≤ 2 * hiddenBit) (hx : x.isFinite = true) :
    (x / ofNat n).isNegative = x.isNegative ∧
      (x / ofNat n).magnitude = nearest (unitsOf x.magnitude) n := by
  obtain ⟨hxn, hxi⟩ := isFinite_iff.mp hx
  obtain ⟨hnn, hni⟩ := isFinite_iff.mp (isFinite_ofNat (n := n) (Nat.lt_of_le_of_lt hn (by decide)))
  have hone : 0 < one := by decide +kernel
  have hdiv : x / ofNat n = ofMagnitude x.isNegative (nearest (unitsOf x.magnitude) n) := by
    show x.div (ofNat n) = _
    simp only [Binary64.div, hxn, hnn, hxi, hni, isZero_ofNat hpos, natAbs_units, unitsOf_ofNat hn,
      isNegative_ofNat, Bool.or_self, Bool.false_eq_true, if_false, Bool.bne_false]
    rw [Nat.mul_comm _ one, Nat.mul_comm _ one, nearest_mul_left hone]
  rw [hdiv]
  exact ⟨isNegative_nearest _ _ _, magnitude_nearest _ _ _⟩

theorem div_ofNat_of_isInfinite (hn : n < 2 ^ 64) (hx : x.isInfinite = true) :
    (x / ofNat n).isInfinite = true := by
  obtain ⟨hnn, hni⟩ := isFinite_iff.mp (isFinite_ofNat hn)
  have hdiv : x / ofNat n = infinity x.isNegative := by
    show x.div (ofNat n) = _
    simp [Binary64.div, isNaN_of_isInfinite hx, hx, hnn, hni, isNegative_ofNat]
  rw [hdiv]
  cases x.isNegative <;> decide

theorem ofNat_mul_of_isInfinite (hpos : 0 < n) (hn : n < 2 ^ 64) (hx : x.isInfinite = true) :
    (ofNat n * x).isInfinite = true := by
  obtain ⟨hnn, hni⟩ := isFinite_iff.mp (isFinite_ofNat hn)
  have hxz : x.isZero = false := by
    rw [isZero, beq_iff_eq.mp hx]
    decide
  have hmul : ofNat n * x = infinity x.isNegative := by
    show (ofNat n).mul x = _
    simp [Binary64.mul, isNaN_of_isInfinite hx, hx, hnn, hni, hxz, isZero_ofNat hpos,
      isNegative_ofNat]
  rw [hmul]
  cases x.isNegative <;> decide

theorem zero_mul_of_isInfinite (hx : x.isInfinite = true) : (ofNat 0 * x).isNaN = true := by
  have hz : (ofNat 0).isZero = true := by decide
  have hnn : (ofNat 0).isNaN = false := by decide
  have hmul : ofNat 0 * x = nan := by
    show (ofNat 0).mul x = _
    simp [Binary64.mul, isNaN_of_isInfinite hx, hx, hnn, hz]
  rw [hmul]
  decide

end Whole

end ParamSweep.Binary64
