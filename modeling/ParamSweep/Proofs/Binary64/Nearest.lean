import Mathlib.Algebra.Order.Field.Basic
import Mathlib.Data.Rat.Cast.Order
import ParamSweep.Proofs.Binary64

/-! # Rounding to the nearest double

Every size lies between those of two neighbouring magnitudes, and is rounded to the nearer one of
these, or to the even one if both are equally near. So an integer is rounded to a double that no
other is nearer to.
-/

namespace ParamSweep.Binary64

/-- The bits of a size that do not fit in a significand. -/
def excess (n : Nat) : Nat := n.log2 - 52

/-- The greatest magnitude that is not above a size. -/
def below (n : Nat) : Nat := excess n * hiddenBit + n / 1 <<< excess n

theorem significand_below (n : Nat) :
    (excess n = 0 ∨ hiddenBit ≤ n / 1 <<< excess n) ∧ n / 1 <<< excess n < 2 * hiddenBit := by
  constructor
  · rcases Nat.eq_zero_or_pos (excess n) with h | h
    · exact .inl h
    · exact .inr (le_div_of_log2 rfl h)
  · rw [Nat.shiftLeft_eq, Nat.one_mul, Nat.div_lt_iff_lt_mul (Nat.two_pow_pos _),
      show 2 * hiddenBit = 2 ^ 53 from rfl, ← Nat.pow_add]
    refine Nat.lt_of_lt_of_le Nat.lt_log2_self (Nat.pow_le_pow_right Nat.two_pos ?_)
    unfold excess
    omega

theorem between (n : Nat) :
    unitsOf (below n) + n % 1 <<< excess n = n ∧ n % 1 <<< excess n < 1 <<< excess n ∧
      unitsOf (below n + 1) = unitsOf (below n) + 1 <<< excess n := by
  obtain ⟨hs, hq⟩ := significand_below n
  have hpos : 0 < 1 <<< excess n := by
    rw [Nat.shiftLeft_eq, Nat.one_mul]
    exact Nat.two_pow_pos _
  have hunits : unitsOf (below n) = 1 <<< excess n * (n / 1 <<< excess n) := by
    rw [below, unitsOf_significand hs (Nat.le_of_lt hq), Nat.shiftLeft_eq, Nat.shiftLeft_eq,
      Nat.one_mul, Nat.mul_comm]
  refine ⟨?_, Nat.mod_lt _ hpos, ?_⟩
  · rw [hunits, Nat.div_add_mod]
  · rw [hunits, below, Nat.add_assoc, unitsOf_significand (by omega) hq, Nat.shiftLeft_eq,
      Nat.shiftLeft_eq, Nat.one_mul, Nat.succ_mul, Nat.mul_comm]

theorem nearest_cases {n : Nat} (h : nearest n 1 < infinite) :
    nearest n 1 = below n ∧ (2 * (n % 1 <<< excess n) < 1 <<< excess n ∨
        2 * (n % 1 <<< excess n) = 1 <<< excess n ∧ below n % 2 = 0) ∨
      nearest n 1 = below n + 1 ∧ (1 <<< excess n < 2 * (n % 1 <<< excess n) ∨
        2 * (n % 1 <<< excess n) = 1 <<< excess n ∧ below n % 2 = 1) := by
  have hmin : nearest n 1 =
      min (excess n * hiddenBit + roundDiv n (1 <<< excess n)) infinite := by
    rw [nearest, Nat.div_one, excess]
  have hbelow : below n = excess n * hiddenBit + n / 1 <<< excess n := rfl
  have heven : below n % 2 = n / 1 <<< excess n % 2 := by
    unfold below hiddenBit
    omega
  rw [roundDiv] at hmin
  split at hmin <;> omega

/-- No magnitude is nearer to a size than the one to which it is rounded, and another one is as
near only if that is even. -/
theorem natAbs_nearest_le {n : Nat} (h : nearest n 1 < infinite) (m : Nat) :
    ((unitsOf (nearest n 1) : Int) - n).natAbs ≤ ((unitsOf m : Int) - n).natAbs ∧
      (((unitsOf (nearest n 1) : Int) - n).natAbs = ((unitsOf m : Int) - n).natAbs →
        m = nearest n 1 ∨ nearest n 1 % 2 = 0) := by
  obtain ⟨hsum, hrest, hnext⟩ := between n
  have hlow (hm : m < below n) : unitsOf m < unitsOf (below n) := unitsOf_strictMono hm
  have hhigh (hm : below n + 1 < m) : unitsOf (below n + 1) < unitsOf m := unitsOf_strictMono hm
  have hplace : m < below n ∨ m = below n ∨ m = below n + 1 ∨ below n + 1 < m := by omega
  rcases nearest_cases h with ⟨hr, hcase⟩ | ⟨hr, hcase⟩ <;> rw [hr] <;>
    rcases hplace with hm | rfl | rfl | hm <;> omega

def toRat (x : Binary64) : ℚ := x.units / one

/-- The finite double that a number is rounded to: no other is nearer, and if another one is as
near, this one is even. -/
structure IsNearest (q : ℚ) (x : Binary64) : Prop where
  finite : x.isFinite = true
  le : ∀ y : Binary64, y.isFinite = true → |x.toRat - q| ≤ |y.toRat - q|
  even : ∀ y : Binary64, y.isFinite = true → |x.toRat - q| = |y.toRat - q| →
    y.toRat = x.toRat ∨ x.magnitude % 2 = 0

theorem one_pos : (0 : ℚ) < one := by
  exact_mod_cast (by decide +kernel : 0 < one)

def distance (x : Binary64) (i : Int) : Nat := (x.units - i * one).natAbs

theorem abs_toRat_sub (x : Binary64) (i : Int) : |x.toRat - i| = x.distance i / one := by
  have hsub : x.toRat - i = ((x.units - i * one : Int) : ℚ) / one := by
    rw [toRat, Int.cast_sub, Int.cast_mul, sub_div, Int.cast_natCast,
      mul_div_cancel_right₀ _ one_pos.ne']
  rw [hsub, abs_div, abs_of_pos one_pos, ← Int.cast_abs, Int.abs_eq_natAbs, Int.cast_natCast,
    distance]

theorem isNegative_ofMagnitude (negative : Bool) {m : Nat} (h : m < signBit) :
    (ofMagnitude negative m).isNegative = negative := by
  rw [isNegative, toNat_ofMagnitude negative h]
  cases negative <;> simp [h]

theorem distance_eq (x : Binary64) (i : Int) :
    x.distance i = if x.isNegative = decide (i < 0)
      then ((unitsOf x.magnitude : Int) - (i.natAbs * one : Nat)).natAbs
      else unitsOf x.magnitude + i.natAbs * one := by
  have hi : i * one =
      if i < 0 then -((i.natAbs * one : Nat) : Int) else (i.natAbs * one : Nat) := by
    rw [Int.natCast_mul]
    split
    · rw [Int.ofNat_natAbs_of_nonpos (by omega), Int.neg_mul, Int.neg_neg]
    · rw [Int.natAbs_of_nonneg (by omega)]
  rw [distance, units, hi]
  clear hi
  generalize unitsOf x.magnitude = u, i.natAbs * one = n
  by_cases hneg : i < 0 <;> cases x.isNegative <;> simp [hneg] <;> omega

theorem ofInt_eq (i : Int) :
    (ofInt i).isNegative = decide (i < 0) ∧ (ofInt i).magnitude = nearest (i.natAbs * one) 1 := by
  have hs : nearest (i.natAbs * one) 1 < signBit :=
    Nat.lt_of_le_of_lt (Nat.min_le_right _ _) (by decide)
  exact ⟨isNegative_ofMagnitude _ hs, magnitude_ofMagnitude _ hs⟩

theorem distance_ofInt_le {i : Int} (h : i.natAbs < 2 ^ 64) (y : Binary64) :
    (ofInt i).distance i ≤ y.distance i ∧
      ((ofInt i).distance i = y.distance i →
        y.units = (ofInt i).units ∨ (ofInt i).magnitude % 2 = 0) := by
  obtain ⟨hsign, hmagnitude⟩ := ofInt_eq i
  have hfinite : (ofInt i).magnitude < infinite := of_decide_eq_true (isFinite_ofInt h)
  rw [hmagnitude] at hfinite
  rw [distance_eq, distance_eq, if_pos hsign, hmagnitude]
  obtain ⟨hle, htie⟩ := natAbs_nearest_le hfinite y.magnitude
  by_cases hy : y.isNegative = decide (i < 0)
  · rw [if_pos hy]
    refine ⟨hle, fun heq => (htie heq).imp_left fun hm => ?_⟩
    rw [units, units, hsign, hy, hmagnitude, hm]
  · rw [if_neg hy]
    -- on the other side of zero, zero itself is not farther away
    have hzero := (natAbs_nearest_le hfinite 0).1
    rw [show unitsOf 0 = 0 from rfl] at hzero
    generalize i.natAbs * one = n at *
    refine ⟨by omega, fun heq => ?_⟩
    have hu : unitsOf y.magnitude = 0 := by omega
    rw [hu] at htie
    refine (htie (by omega)).imp_left fun hm => ?_
    rw [units, units, hmagnitude, ← hm, hu]
    simp

/-- An integer of 64 bits is rounded to the nearest double. -/
theorem isNearest_ofInt {i : Int} (h : i.natAbs < 2 ^ 64) : IsNearest i (ofInt i) := by
  refine ⟨isFinite_ofInt h, fun y _ => ?_, fun y _ htie => ?_⟩
  · rw [abs_toRat_sub, abs_toRat_sub, div_le_div_iff_of_pos_right one_pos, Nat.cast_le]
    exact (distance_ofInt_le h y).1
  · rw [abs_toRat_sub, abs_toRat_sub, div_left_inj' one_pos.ne', Nat.cast_inj] at htie
    refine ((distance_ofInt_le h y).2 htie).imp_left fun hunits => ?_
    rw [toRat, toRat, hunits]

theorem exists_unitsOf_eq {n : Nat} (h : n ≤ 2 * hiddenBit) : ∃ m, unitsOf m = n * one := by
  by_cases hn : n = 0
  · exact ⟨0, by rw [hn, Nat.zero_mul]; rfl⟩
  · generalize ht : 52 - n.log2 = t
    have hlog := Nat.log2_self_le hn
    have hlow : hiddenBit ≤ n <<< t := by
      rw [Nat.shiftLeft_eq]
      calc hiddenBit ≤ 2 ^ (n.log2 + t) := Nat.pow_le_pow_right Nat.two_pos (by omega : 52 ≤ _)
        _ = 2 ^ n.log2 * 2 ^ t := Nat.pow_add _ _ _
        _ ≤ n * 2 ^ t := Nat.mul_le_mul_right _ hlog
    have hhigh : n <<< t ≤ 2 * hiddenBit := by
      by_cases ht0 : t = 0
      · rwa [ht0, Nat.shiftLeft_zero]
      · rw [Nat.shiftLeft_eq]
        calc n * 2 ^ t ≤ 2 ^ (n.log2 + 1) * 2 ^ t :=
              Nat.mul_le_mul_right _ (Nat.le_of_lt Nat.lt_log2_self)
          _ = 2 ^ (n.log2 + 1 + t) := (Nat.pow_add _ _ _).symm
          _ = 2 * hiddenBit := by rw [show n.log2 + 1 + t = 53 by omega]; rfl
    refine ⟨(1074 - t) * hiddenBit + n <<< t, ?_⟩
    have hshift (k : Nat) : n <<< k = n * 1 <<< k := by
      rw [Nat.shiftLeft_eq, Nat.shiftLeft_eq, Nat.one_mul]
    rw [unitsOf_significand (.inr hlow) hhigh, ← Nat.shiftLeft_add,
      show t + (1074 - t) = 1074 by omega]
    exact hshift 1074

theorem toRat_ofInt {i : Int} (h : i.natAbs ≤ 2 ^ 53) : (ofInt i).toRat = i := by
  obtain ⟨m, hm⟩ := exists_unitsOf_eq (n := i.natAbs) h
  have hfinite : (ofInt i).magnitude < infinite := of_decide_eq_true (isFinite_ofInt (by omega))
  obtain ⟨hsign, hmagnitude⟩ := ofInt_eq i
  rw [hmagnitude] at hfinite
  have hdistance : (ofInt i).distance i = 0 := by
    have hle := (natAbs_nearest_le hfinite m).1
    rw [hm, Int.sub_self, Int.natAbs_zero] at hle
    rw [distance_eq, if_pos hsign, hmagnitude]
    exact Nat.le_zero.mp hle
  have habs := abs_toRat_sub (ofInt i) i
  rw [hdistance, Nat.cast_zero, zero_div, abs_eq_zero, sub_eq_zero] at habs
  exact habs

end ParamSweep.Binary64
