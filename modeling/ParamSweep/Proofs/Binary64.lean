import Mathlib.Algebra.Group.Nat.Defs
import Mathlib.Order.Monotone.Basic
import ParamSweep.Binary64

/-! # Words and sizes of doubles

A double is known by its sign and its magnitude, and two doubles that are numbers are equal
if they are the same or both zero. The magnitudes number the sizes of doubles in their order.
Rounding stays below infinity for every value that is not above the greatest finite number.
-/

namespace ParamSweep.Binary64

theorem toNat_word (x : Binary64) :
    x.word.toNat = x.magnitude + if x.isNegative then signBit else 0 := by
  have hx : x.word.toNat < 2 * signBit := x.word.toNat_lt
  by_cases hs : signBit ≤ x.word.toNat
  · rw [isNegative, decide_eq_true hs, if_pos rfl, magnitude,
      Nat.mod_eq_sub_mod hs, Nat.mod_eq_of_lt (by omega)]
    omega
  · rw [isNegative, decide_eq_false hs, if_neg Bool.false_ne_true, magnitude,
      Nat.mod_eq_of_lt (by omega), Nat.add_zero]

theorem eq_of_magnitude {x y : Binary64} (hs : x.isNegative = y.isNegative)
    (hm : x.magnitude = y.magnitude) : x = y := by
  have hw : x.word = y.word := by
    rw [← UInt64.toNat_inj, toNat_word, toNat_word, hs, hm]
  cases x
  cases y
  exact congrArg _ hw

theorem toNat_ofMagnitude (negative : Bool) {m : Nat} (h : m < signBit) :
    (ofMagnitude negative m).word.toNat = m + if negative then signBit else 0 := by
  rw [ofMagnitude, UInt64.toNat_ofNat']
  refine Nat.mod_eq_of_lt ?_
  have : 2 ^ 64 = 2 * signBit := rfl
  split <;> omega

theorem magnitude_ofMagnitude (negative : Bool) {m : Nat} (h : m < signBit) :
    (ofMagnitude negative m).magnitude = m := by
  rw [magnitude, toNat_ofMagnitude negative h]
  split
  · rw [Nat.add_mod_right, Nat.mod_eq_of_lt h]
  · exact Nat.mod_eq_of_lt h

theorem orderKey_eq_iff {x y : Binary64} :
    x.orderKey = y.orderKey ↔ x = y ∨ x.isZero = true ∧ y.isZero = true := by
  simp only [isZero, beq_iff_eq]
  constructor
  · intro h
    by_cases hz : x.magnitude = 0 ∧ y.magnitude = 0
    · exact .inr hz
    · left
      -- away from zero the key has the sign and the size of the magnitude
      simp only [orderKey] at h
      have hs : x.isNegative = y.isNegative := by
        cases hx : x.isNegative <;> cases hy : y.isNegative <;> simp [hx, hy] at h ⊢ <;> omega
      rw [hs] at h
      refine eq_of_magnitude hs ?_
      split at h <;> omega
  · rintro (rfl | ⟨hx, hy⟩)
    · rfl
    · simp [orderKey, hx, hy]

theorem beq_iff {x y : Binary64} (hx : x.isNaN = false) (hy : y.isNaN = false) :
    (x == y) = true ↔ x = y ∨ x.isZero = true ∧ y.isZero = true := by
  have hc : (x == y) = (x.compare? y == some .eq) := rfl
  rw [hc, compare?, hx, hy, ← orderKey_eq_iff]
  simp

theorem beq_comm (x y : Binary64) : (x == y) = (y == x) := by
  have hc (x y : Binary64) : (x == y) = (x.compare? y == some .eq) := rfl
  rw [hc, hc, compare?, compare?, Bool.or_comm]
  split
  · rfl
  · rw [Bool.eq_iff_iff]
    simp only [beq_iff_eq, Option.some.injEq]
    exact Std.OrientedCmp.eq_comm

theorem isSome_compare?_iff {x y : Binary64} :
    (x.compare? y).isSome = true ↔ x.isNaN = false ∧ y.isNaN = false := by
  rw [compare?]
  cases x.isNaN <;> cases y.isNaN <;> simp

theorem compare?_swap (x y : Binary64) : y.compare? x = (x.compare? y).map Ordering.swap := by
  rw [compare?, compare?, Bool.or_comm]
  split
  · rfl
  · rw [Option.map_some, Std.OrientedOrd.eq_swap]

def greatest : Nat := (2 * hiddenBit - 1) <<< 2045

theorem roundDiv_le {n d k : Nat} (hd : 0 < d) (h : n ≤ d * k) : roundDiv n d ≤ k := by
  have hq : n / d ≤ k := Nat.div_le_of_le_mul h
  have hn : d * (n / d) + n % d = n := Nat.div_add_mod n d
  simp only [roundDiv]
  split
  · exact hq
  · -- what is rounded up is above its quotient
    have hne : n / d ≠ k := by
      rintro rfl
      omega
    omega

theorem roundDiv_shiftLeft_le {n d k s : Nat} (hd : 0 < d) (h : n ≤ d * k <<< s) :
    roundDiv n (d <<< s) ≤ k := by
  rw [Nat.shiftLeft_eq] at h ⊢
  refine roundDiv_le (Nat.mul_pos hd (Nat.two_pow_pos s)) ?_
  rwa [Nat.mul_assoc, Nat.mul_comm (2 ^ s)]

/-- The units of a magnitude with a significand of 53 bits, or of fewer at the least exponent. A
significand that has become one too great is still the same size. -/
theorem unitsOf_significand {s q : Nat} (h : s = 0 ∨ hiddenBit ≤ q) (hq : q ≤ 2 * hiddenBit) :
    unitsOf (s * hiddenBit + q) = q <<< s := by
  have hb : 0 < hiddenBit := by decide
  have hof {s q : Nat} (h : hiddenBit ≤ q) (hq : q < 2 * hiddenBit) :
      unitsOf (s * hiddenBit + q) = q <<< s := by
    have hdiv : (s * hiddenBit + q) / hiddenBit = s + 1 := by
      unfold hiddenBit at *
      omega
    have hmod : (s * hiddenBit + q) % hiddenBit = q - hiddenBit := by
      unfold hiddenBit at *
      omega
    rw [unitsOf, hdiv, hmod, if_neg (by omega), Nat.add_sub_cancel, Nat.add_sub_of_le h]
  rcases Nat.lt_or_ge q hiddenBit with hlow | hhigh
  · obtain rfl := h.resolve_right (Nat.not_le.mpr hlow)
    rw [Nat.zero_mul, Nat.zero_add, unitsOf, if_pos hlow, Nat.shiftLeft_zero]
  · rcases Nat.lt_or_eq_of_le hq with hlt | rfl
    · exact hof hhigh hlt
    · have hcarry := hof (s := s + 1) (Nat.le_refl _) (show hiddenBit < 2 * hiddenBit by omega)
      rw [Nat.add_mul, Nat.one_mul, Nat.add_assoc, ← Nat.two_mul] at hcarry
      rw [hcarry, Nat.shiftLeft_succ_inside]

theorem exists_significand (m : Nat) :
    ∃ s q, m = s * hiddenBit + q ∧ (s = 0 ∨ hiddenBit ≤ q) ∧ q < 2 * hiddenBit := by
  refine ⟨m / hiddenBit - 1, m - (m / hiddenBit - 1) * hiddenBit, ?_⟩
  unfold hiddenBit
  omega

theorem unitsOf_strictMono : StrictMono unitsOf := by
  refine strictMono_nat_of_lt_succ fun m => ?_
  obtain ⟨s, q, rfl, hs, hq⟩ := exists_significand m
  rw [unitsOf_significand hs (Nat.le_of_lt hq), Nat.add_assoc,
    unitsOf_significand (by omega) hq, Nat.shiftLeft_eq, Nat.shiftLeft_eq]
  exact Nat.mul_lt_mul_of_pos_right (Nat.lt_succ_self q) (Nat.two_pow_pos s)

theorem unitsOf_mono {m m' : Nat} (h : m ≤ m') : unitsOf m ≤ unitsOf m' :=
  unitsOf_strictMono.monotone h

theorem unitsOf_le {m : Nat} (h : m < infinite) : unitsOf m ≤ greatest := by
  have hgreatest : unitsOf (infinite - 1) = greatest := by decide +kernel
  rw [← hgreatest]
  exact unitsOf_mono (Nat.le_sub_one_of_lt h)

theorem log2_le {q : Nat} (h : q ≤ greatest) : q.log2 ≤ 2097 := by
  by_cases h0 : q = 0
  · subst h0
    decide
  · refine Nat.lt_succ_iff.mp ((Nat.log2_lt h0).mpr (Nat.lt_of_le_of_lt h ?_))
    decide +kernel

/-- A quotient that is not above the greatest finite number is rounded to a finite one. -/
theorem nearest_lt_infinite {n d : Nat} (hd : 0 < d) (h : n ≤ d * greatest) :
    nearest n d < infinite := by
  have hb : 0 < hiddenBit := by decide
  have hlog := log2_le (Nat.div_le_of_le_mul h)
  have hlt : n < 2 ^ ((n / d).log2 + 1) * d := Nat.lt_mul_of_div_lt Nat.lt_log2_self hd
  refine Nat.lt_of_le_of_lt (Nat.min_le_left _ _) ?_
  generalize hs : (n / d).log2 - 52 = shift
  rw [infinite]
  by_cases hlast : shift = 2045
  · -- the last exponent: the significand of the greatest number is not passed
    subst hlast
    have hr : roundDiv n (d <<< 2045) ≤ 2 * hiddenBit - 1 := roundDiv_shiftLeft_le hd h
    omega
  · have hr : roundDiv n (d <<< shift) ≤ 2 * hiddenBit := by
      refine roundDiv_shiftLeft_le hd (Nat.le_trans (Nat.le_of_lt hlt) ?_)
      rw [Nat.mul_comm, show 2 * hiddenBit = 1 <<< 53 from rfl, Nat.shiftLeft_eq, Nat.shiftLeft_eq,
        Nat.one_mul, ← Nat.pow_add]
      exact Nat.mul_le_mul_left d (Nat.pow_le_pow_right Nat.two_pos (by omega))
    have := Nat.mul_le_mul_right hiddenBit (show shift ≤ 2044 by omega)
    omega

theorem isFinite_ofMagnitude (negative : Bool) {m : Nat} (h : m < infinite) :
    (ofMagnitude negative m).isFinite = true := by
  have hs : infinite < signBit := by decide
  rw [isFinite, magnitude_ofMagnitude negative (by omega)]
  exact decide_eq_true h

theorem isFinite_iff {x : Binary64} :
    x.isFinite = true ↔ x.isNaN = false ∧ x.isInfinite = false := by
  simp only [isFinite, isNaN, isInfinite, decide_eq_true_eq, decide_eq_false_iff_not,
    beq_eq_false_iff_ne]
  omega

theorem magnitude_nearest (negative : Bool) (n d : Nat) :
    (ofMagnitude negative (nearest n d)).magnitude = nearest n d := by
  have hs : infinite < signBit := by decide
  exact magnitude_ofMagnitude negative (Nat.lt_of_le_of_lt (Nat.min_le_right _ _) hs)

theorem isNaN_nearest (negative : Bool) (n d : Nat) :
    (ofMagnitude negative (nearest n d)).isNaN = false := by
  rw [isNaN, magnitude_nearest]
  exact decide_eq_false (Nat.not_lt.mpr (Nat.min_le_right _ _))

theorem isFinite_ofNat_of_le {m n : Nat} (h : m ≤ n) (hn : n * one ≤ greatest) :
    (ofNat m).isFinite = true := by
  refine isFinite_ofMagnitude _ (nearest_lt_infinite Nat.one_pos ?_)
  rw [Nat.one_mul]
  exact Nat.le_trans (Nat.mul_le_mul_right one h) hn

theorem isFinite_ofNat {n : Nat} (h : n < 2 ^ 64) : (ofNat n).isFinite = true :=
  isFinite_ofNat_of_le (Nat.le_of_lt h) (by decide +kernel)

theorem isFinite_ofInt {i : Int} (h : i.natAbs < 2 ^ 64) : (ofInt i).isFinite = true := by
  have hn := isFinite_ofNat h
  rw [ofNat, isFinite, magnitude_nearest] at hn
  exact isFinite_ofMagnitude _ (of_decide_eq_true hn)

theorem isFinite_neg {x : Binary64} (h : x.isFinite = true) : (-x).isFinite = true :=
  isFinite_ofMagnitude _ (of_decide_eq_true h)

theorem natAbs_units (x : Binary64) : x.units.natAbs = unitsOf x.magnitude := by
  rw [units]
  split
  · exact Int.natAbs_neg _
  · rfl

theorem mul_eq {x y : Binary64} (hx : x.isFinite = true) (hy : y.isFinite = true) :
    x * y = ofMagnitude (x.isNegative != y.isNegative)
      (nearest (unitsOf x.magnitude * unitsOf y.magnitude) one) := by
  obtain ⟨hxn, hxi⟩ := isFinite_iff.mp hx
  obtain ⟨hyn, hyi⟩ := isFinite_iff.mp hy
  show x.mul y = _
  simp [Binary64.mul, hxn, hyn, hxi, hyi, natAbs_units]

theorem isFinite_mul {x y : Binary64} (hx : x.isFinite = true) (hy : y.isFinite = true)
    (h : (x * y).isInfinite = false) : (x * y).isFinite = true :=
  isFinite_iff.mpr ⟨mul_eq hx hy ▸ isNaN_nearest _ _ _, h⟩

theorem isFinite_mul_of_le {x y : Binary64} (hx : x.isFinite = true) (hy : y.isFinite = true)
    (h : unitsOf x.magnitude * unitsOf y.magnitude ≤ one * greatest) :
    (x * y).isFinite = true := by
  rw [mul_eq hx hy]
  exact isFinite_ofMagnitude _ (nearest_lt_infinite (by decide +kernel) h)

def oneMagnitude : Nat := 1023 * hiddenBit

theorem le_roundDiv (n d : Nat) : n / d ≤ roundDiv n d := by
  simp only [roundDiv]
  split <;> omega

theorem le_log2 {n k : Nat} (hn : n ≠ 0) (h : 1 <<< k ≤ n) : k ≤ n.log2 := by
  rwa [Nat.le_log2 hn, ← Nat.one_mul (2 ^ k), ← Nat.shiftLeft_eq]

/-! ### Rounding keeps the order -/

theorem roundDiv_mono {n n' d : Nat} (h : n ≤ n') : roundDiv n d ≤ roundDiv n' d := by
  have hn : d * (n / d) + n % d = n := Nat.div_add_mod n d
  have hn' : d * (n' / d) + n' % d = n' := Nat.div_add_mod n' d
  have hq : n / d ≤ n' / d := Nat.div_le_div_right h
  simp only [roundDiv]
  by_cases heq : n / d = n' / d
  · -- with equal quotients the remainders are in order
    rw [heq] at hn ⊢
    split <;> split <;> omega
  · split <;> split <;> omega

theorem roundDiv_le_of_log2 {n s : Nat} (h : n.log2 - 52 = s) :
    roundDiv n (1 <<< s) ≤ 2 * hiddenBit := by
  refine roundDiv_shiftLeft_le Nat.one_pos ?_
  rw [Nat.one_mul, show 2 * hiddenBit = 1 <<< 53 from rfl, ← Nat.shiftLeft_add, Nat.shiftLeft_eq,
    Nat.one_mul]
  exact Nat.le_trans (Nat.le_of_lt Nat.lt_log2_self)
    (Nat.pow_le_pow_right Nat.two_pos (by omega))

theorem le_div_of_log2 {n s : Nat} (h : n.log2 - 52 = s) (hs : 0 < s) :
    hiddenBit ≤ n / 1 <<< s := by
  have hn : n ≠ 0 := by
    rintro rfl
    rw [Nat.log2_zero] at h
    omega
  rw [Nat.shiftLeft_eq, Nat.one_mul, Nat.le_div_iff_mul_le (Nat.two_pow_pos _),
    show hiddenBit = 2 ^ 52 from rfl, ← Nat.pow_add, show 52 + s = n.log2 by omega]
  exact Nat.log2_self_le hn

theorem le_roundDiv_of_log2 {n s : Nat} (h : n.log2 - 52 = s) (hs : 0 < s) :
    hiddenBit ≤ roundDiv n (1 <<< s) :=
  Nat.le_trans (le_div_of_log2 h hs) (le_roundDiv _ _)

theorem nearest_mono {n n' : Nat} (h : n ≤ n') : nearest n 1 ≤ nearest n' 1 := by
  have hlog : n.log2 ≤ n'.log2 := by
    by_cases hn : n = 0
    · rw [hn, Nat.log2_zero]
      exact Nat.zero_le _
    · refine le_log2 (by omega) (Nat.le_trans ?_ h)
      rw [Nat.shiftLeft_eq, Nat.one_mul]
      exact Nat.log2_self_le hn
  simp only [nearest, Nat.div_one]
  refine Nat.le_min.mpr ⟨Nat.le_trans (Nat.min_le_left _ _) ?_, Nat.min_le_right _ _⟩
  generalize hs : n.log2 - 52 = s
  generalize hs' : n'.log2 - 52 = s'
  by_cases heq : s = s'
  · subst heq
    exact Nat.add_le_add_left (roundDiv_mono h) _
  · -- a carry out of the bits of the one does not pass the other's exponent
    have hle := roundDiv_le_of_log2 hs
    have hge := le_roundDiv_of_log2 hs' (by omega)
    have hcarry := Nat.mul_le_mul_right hiddenBit (show s + 1 ≤ s' by omega)
    rw [Nat.add_one_mul] at hcarry
    omega

theorem le_nearest {n : Nat} (h : one ≤ n) : oneMagnitude ≤ nearest n 1 := by
  have hn : n ≠ 0 := by
    have : 0 < one := by decide +kernel
    omega
  have hlog : 1074 ≤ n.log2 := le_log2 hn h
  have hr : hiddenBit ≤ roundDiv n (1 <<< (n.log2 - 52)) := le_roundDiv_of_log2 rfl (by omega)
  have := Nat.mul_le_mul_right hiddenBit (show 1022 ≤ n.log2 - 52 by omega)
  simp only [nearest, Nat.div_one, oneMagnitude]
  refine Nat.le_min.mpr ⟨by omega, ?_⟩
  decide

theorem one_le_unitsOf {m : Nat} (h : oneMagnitude ≤ m) : one ≤ unitsOf m := by
  have hone : unitsOf oneMagnitude = one := by decide +kernel
  rw [← hone]
  exact unitsOf_mono h

theorem isFinite_div {x y : Binary64} (hx : x.isFinite = true) (hy : y.isNaN = false)
    (h : oneMagnitude ≤ y.magnitude) : (x / y).isFinite = true := by
  obtain ⟨hxn, hxi⟩ := isFinite_iff.mp hx
  have hd : x / y = x.div y := rfl
  have hone : 0 < oneMagnitude := by decide
  have hz : y.isZero = false := beq_eq_false_iff_ne.mpr (by omega)
  rw [hd, Binary64.div]
  simp only [hxn, hy, hxi, hz, Bool.or_self, Bool.false_eq_true, if_false]
  split
  · exact isFinite_ofMagnitude _ (by decide)
  · have hunits := one_le_unitsOf h
    have hpos : 0 < one := by decide +kernel
    refine isFinite_ofMagnitude _ (nearest_lt_infinite ?_ ?_)
    · rw [natAbs_units]
      omega
    · rw [natAbs_units, natAbs_units, Nat.mul_comm]
      exact Nat.mul_le_mul hunits (unitsOf_le (of_decide_eq_true hx))

end ParamSweep.Binary64
