import Mathlib.Algebra.Group.Nat.Defs
import ParamSweep.Decimal.Layout
import ParamSweep.Proofs.Binary64

/-! # Bounds of shortest decimals

The shortest decimal of a positive magnitude has a positive coefficient and is at most the
midpoint to the next greater magnitude.
-/

namespace ParamSweep.Decimal

namespace Interval

variable {i : Interval} {tie : Tie} {exponent : Int}

theorem unit_pos : 0 < unit := by decide +kernel

theorem scale_fst_pos (exponent : Int) : 0 < (scale exponent).1 := by
  rw [scale]
  split
  · exact Nat.pow_pos (by decide)
  · exact Nat.one_pos

theorem scale_snd_pos (exponent : Int) : 0 < (scale exponent).2 := by
  rw [scale]
  split
  · exact unit_pos
  · exact Nat.mul_pos unit_pos (Nat.pow_pos (by decide))

theorem le_of_le_leading (hv : 0 < i.value) (h : exponent ≤ i.leading) :
    (scale exponent).2 ≤ i.value * (scale exponent).1 := by
  have hpow {m n : Nat} (h : m ≤ n) : Nat.pow 10 m ≤ Nat.pow 10 n :=
    Nat.pow_le_pow_right (by decide) h
  rw [leading] at h
  split at h
  · next hunit =>
    rw [scale]
    split
    · exact Nat.le_trans hunit (Nat.le_mul_of_pos_right _ (Nat.pow_pos (by decide)))
    · have hq : ¬(digits (i.value / unit)).length ≤ exponent.natAbs := by omega
      rw [Nat.mul_one, Nat.mul_comm, ← Nat.le_div_iff_mul_le unit_pos]
      by_cases hzero : exponent.natAbs = 0
      · rw [hzero]
        exact Nat.div_pos hunit unit_pos
      · rw [digits, Nat.length_toDigits_le_iff (by decide) (by omega), Nat.not_lt] at hq
        exact hq
  · next hunit =>
    have hk : 0 < (digits ((unit - 1) / i.value)).length := Nat.length_toDigits_pos
    have hlt : (unit - 1) / i.value < Nat.pow 10 (digits ((unit - 1) / i.value)).length :=
      (Nat.length_toDigits_le_iff (by decide) hk).mp (Nat.le_refl _)
    have hnum : unit - 1 < i.value * Nat.pow 10 (digits ((unit - 1) / i.value)).length := by
      rw [Nat.mul_comm]
      exact (Nat.div_lt_iff_lt_mul hv).mp hlt
    have hneg : exponent < 0 := by omega
    have hle := Nat.mul_le_mul_left i.value
      (hpow (show (digits ((unit - 1) / i.value)).length ≤ exponent.natAbs by omega))
    rw [scale, if_pos hneg]
    have := unit_pos
    dsimp only
    omega

theorem holds_zero (h : 0 < i.low) (exponent : Int) : i.holds exponent 0 = false := by
  have hlow : 0 < i.low * (scale exponent).1 := Nat.mul_pos h (scale_fst_pos exponent)
  simp only [holds, Nat.zero_mul]
  split
  · exact decide_eq_false fun h => Nat.not_le.mpr hlow h.1
  · exact decide_eq_false fun h => Nat.not_lt_zero _ h.1

theorem holds_of_onGrid? {c : Nat} (h : i.onGrid? tie exponent = some c) :
    i.holds exponent c = true := by
  simp only [onGrid?] at h
  split at h
  · next hdown hup =>
    obtain rfl := Option.some.inj h
    split
    · exact hup
    · exact hdown
  · next hdown _ =>
    obtain rfl := Option.some.inj h
    exact hdown
  · next _ hup =>
    obtain rfl := Option.some.inj h
    exact hup
  · cases h

theorem le_of_holds {c : Nat} (h : i.holds exponent c = true) :
    c * (scale exponent).2 ≤ i.high * (scale exponent).1 := by
  simp only [holds] at h
  split at h
  · exact (of_decide_eq_true h).2
  · exact Nat.le_of_lt (of_decide_eq_true h).2

theorem search_le (h : i.value ≤ i.high) (n : Nat) :
    (i.search tie n).coefficient * (scale (i.search tie n).exponent).2 ≤
      i.high * (scale (i.search tie n).exponent).1 := by
  induction n with
  | zero =>
    rw [search]
    exact Nat.le_trans (Nat.div_mul_le_self _ _) (Nat.mul_le_mul_right _ h)
  | succ n ih =>
    rw [search]
    split
    · next c hc => exact le_of_holds (holds_of_onGrid? hc)
    · exact ih

theorem coefficient_search_pos (hlow : 0 < i.low) (hv : 0 < i.value) (n : Nat) :
    0 < (i.search tie n).coefficient := by
  induction n with
  | zero =>
    rw [search]
    exact Nat.div_pos (le_of_le_leading hv (by omega)) (scale_snd_pos _)
  | succ n ih =>
    rw [search]
    split
    · next c hc =>
      have hholds := holds_of_onGrid? hc
      refine Nat.pos_of_ne_zero fun (hzero : c = 0) => ?_
      rw [hzero, holds_zero hlow] at hholds
      cases hholds
    · exact ih

end Interval

theorem shortest_le (tie : Tie) (magnitude : Nat) :
    (shortest tie magnitude).coefficient * (Interval.scale (shortest tie magnitude).exponent).2 ≤
      (Binary64.unitsOf magnitude + Binary64.unitsOf (magnitude + 1)) *
        (Interval.scale (shortest tie magnitude).exponent).1 := by
  refine Interval.search_le ?_ 17
  have := Binary64.unitsOf_mono (Nat.le_add_right magnitude 1)
  show 2 * Binary64.unitsOf magnitude ≤
    Binary64.unitsOf magnitude + Binary64.unitsOf (magnitude + 1)
  omega

theorem coefficient_shortest_pos (tie : Tie) {magnitude : Nat} (h : magnitude ≠ 0) :
    0 < (shortest tie magnitude).coefficient := by
  have hunits : 0 < Binary64.unitsOf magnitude := by
    rw [Binary64.unitsOf]
    split
    · exact Nat.pos_of_ne_zero h
    · rw [Nat.shiftLeft_eq]
      exact Nat.mul_pos (by rw [Binary64.hiddenBit]; omega) (Nat.two_pow_pos _)
  refine Interval.coefficient_search_pos ?_ ?_ 17
  · exact Nat.add_pos_right _ hunits
  · exact Nat.mul_pos Nat.two_pos hunits

end ParamSweep.Decimal
