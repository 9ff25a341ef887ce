import ParamSweep.Proofs.Json.Finite
import ParamSweep.Proofs.Json.Layout

/-! # Printed doubles are in range

A numeral is refused if it is too large for a double after two roundings. The numeral that a
finite double is written as is never so large: it is at most the midpoint to the next greater
double, and where that is close to the limit the roundings have been computed.
-/

namespace ParamSweep.Json.Numeral

open Binary64 (infinite greatest one unitsOf nearest)
open Decimal (Interval)

section Digits

theorem mul_pow_le_foldl (ds : List Nat) (n : Nat) :
    n * 10 ^ ds.length ≤ ds.foldl (fun n d => 10 * n + d) n := by
  induction ds generalizing n with
  | nil => exact Nat.le_of_eq (Nat.mul_one n)
  | cons d ds ih =>
    refine Nat.le_trans ?_ (ih (10 * n + d))
    rw [List.length_cons, Nat.pow_succ', ← Nat.mul_assoc, Nat.mul_comm n]
    exact Nat.mul_le_mul_right _ (Nat.le_add_right _ _)

theorem append_le (n : Nat) (ds : List Nat) :
    (append n ds).2 ≤ ds.length ∧
      (append n ds).1 * 10 ^ (append n ds).2 ≤ ds.foldl (fun n d => 10 * n + d) n := by
  induction ds generalizing n with
  | nil => exact ⟨Nat.le_refl 0, Nat.le_of_eq (Nat.mul_one n)⟩
  | cons d ds ih =>
    rw [append]
    split
    · obtain ⟨hlength, hle⟩ := ih (10 * n + d)
      exact ⟨Nat.le_succ_of_le hlength, hle⟩
    · exact ⟨Nat.le_refl _, mul_pow_le_foldl (d :: ds) n⟩

theorem foldl_zeros (n z : Nat) :
    ((List.replicate z '0').map digitOf).foldl (fun n d => 10 * n + d) n = n * 10 ^ z := by
  induction z generalizing n with
  | zero => exact (Nat.mul_one n).symm
  | succ z ih =>
    have hdigit : digitOf '0' = 0 := rfl
    rw [List.replicate_succ, List.map_cons, List.foldl_cons, ih, hdigit, Nat.pow_succ',
      ← Nat.mul_assoc, Nat.add_zero, Nat.mul_comm 10]

theorem exists_dropZeros_append (cs : List Char) :
    ∃ z, Layout.dropZeros cs ++ List.replicate z '0' = cs := by
  refine ⟨(cs.reverse.takeWhile (· == '0')).length, ?_⟩
  have hzeros : cs.reverse.takeWhile (· == '0') =
      List.replicate (cs.reverse.takeWhile (· == '0')).length '0' :=
    List.eq_replicate_of_mem fun c hc => by simpa using List.mem_takeWhile_imp hc
  rw [Layout.dropZeros, ← List.reverse_inj, List.reverse_append, List.reverse_reverse,
    List.reverse_replicate, ← hzeros, List.takeWhile_append_dropWhile]

theorem exists_ofDigits_dropZeros (n : Nat) :
    ∃ z, ofDigits ((Layout.dropZeros (Decimal.digits n)).map digitOf) * 10 ^ z = n ∧
      (Layout.dropZeros (Decimal.digits n)).length + z = (Decimal.digits n).length := by
  obtain ⟨z, hz⟩ := exists_dropZeros_append (Decimal.digits n)
  refine ⟨z, ?_, ?_⟩
  · rw [ofDigits, ← foldl_zeros, ← List.foldl_append, ← List.map_append, hz]
    exact foldl_digits n
  · have hlength := congrArg List.length hz
    rwa [List.length_append, List.length_replicate] at hlength

end Digits

/-- The midpoint between the two greatest finite numbers, in units of an interval. -/
def limit : Nat := unitsOf (infinite - 2) + unitsOf (infinite - 1)

theorem isFinite_ofNat_mul_tenTo {s t e k : Nat} (hs : s < UInt64.size) (ht : s ≤ t) (he : e ≤ k)
    (hk : k ≤ 308)
    (h : unitsOf (nearest (t * one) 1) * unitsOf (nearest (Nat.pow 10 k * one) 1) ≤
      one * greatest) :
    (Binary64.ofNat s * tenTo e).isFinite = true := by
  have hunits {m n : Nat} (hmn : m ≤ n) :
      unitsOf (Binary64.ofNat m).magnitude ≤ unitsOf (nearest (n * one) 1) := by
    rw [Binary64.ofNat, Binary64.magnitude_nearest]
    exact Binary64.unitsOf_mono (Binary64.nearest_mono (Nat.mul_le_mul_right one hmn))
  have hpow : Nat.pow 10 e ≤ Nat.pow 10 k := Nat.pow_le_pow_right (by decide) he
  refine Binary64.isFinite_mul_of_le (Binary64.isFinite_ofNat hs)
    (isFinite_tenTo (Nat.le_trans he hk)) ?_
  exact Nat.le_trans (Nat.mul_le_mul (hunits ht) (hunits hpow)) h

theorem limit_spec : ∀ k < 20,
    unitsOf (nearest (limit / (Interval.unit * Nat.pow 10 (289 + k)) * one) 1) *
      unitsOf (nearest (Nat.pow 10 (289 + k) * one) 1) ≤ one * greatest := by
  decide +kernel

theorem isFinite_of_le_limit {s k : Nat} (hs : s < UInt64.size) (hk : k ≤ 308)
    (h : s * 10 ^ k * Interval.unit ≤ limit) : (Binary64.ofNat s * tenTo k).isFinite = true := by
  by_cases hsmall : k ≤ 288
  · -- any significand of 64 bits is small enough
    exact isFinite_ofNat_mul_tenTo hs (Nat.le_of_lt hs) hsmall (by decide) (by decide +kernel)
  · obtain ⟨j, rfl⟩ : ∃ j, k = 289 + j := ⟨k - 289, by omega⟩
    have hpow : 0 < Interval.unit * Nat.pow 10 (289 + j) :=
      Nat.mul_pos Interval.unit_pos (Nat.pow_pos (by decide))
    refine isFinite_ofNat_mul_tenTo hs ?_ (Nat.le_refl _) hk (limit_spec j (by omega))
    rw [Nat.le_div_iff_mul_le hpow, Nat.mul_comm Interval.unit, ← Nat.mul_assoc]
    exact h

theorem limit_lt {k : Nat} (h : 309 ≤ k) : limit < 10 ^ k * Interval.unit := by
  have hpow {i : Nat} (hi : i ≤ k) (hlt : limit / Interval.unit < Nat.pow 10 i) :
      limit / Interval.unit < 10 ^ k :=
    Nat.lt_of_lt_of_le hlt (Nat.pow_le_pow_right (by decide) hi)
  rw [← Nat.div_lt_iff_lt_mul Interval.unit_pos]
  exact hpow h (by decide +kernel)

theorem isSome_scaled? {s : Nat} {e : Int} (hs : s < UInt64.size)
    (h : 0 ≤ e → s * 10 ^ e.toNat * Interval.unit ≤ limit) : (scaled? s e).isSome = true := by
  simp only [scaled?]
  split
  · rfl
  · next hneg =>
    have hle := h (by omega)
    generalize hk : e.toNat = k at hle
    split
    · have hfinite := isFinite_of_le_limit hs (by omega) hle
      rw [(Binary64.isFinite_iff.mp hfinite).2]
      rfl
    · next hlarge =>
      -- a significand that is not zero is above the limit
      have hzero : s = 0 := by
        refine Nat.eq_zero_of_not_pos fun hpos => ?_
        have hmul := Nat.mul_le_mul_right Interval.unit (Nat.le_mul_of_pos_left (10 ^ k) hpos)
        have hlt := limit_lt (show 309 ≤ k by omega)
        omega
      subst hzero
      have hz : (Binary64.ofNat 0).isZero = true := by decide +kernel
      rw [if_pos hz]
      rfl

/-- A significand that is cut from a coefficient is at most what the coefficient is, each with
its power of ten. -/
theorem mul_le_of_scale {c s j high : Nat} {e e' : Int}
    (hc : c * (Interval.scale e).2 ≤ high * (Interval.scale e).1) (hs : s * 10 ^ j ≤ c)
    (he : e' = e + j) (hpos : 0 ≤ e') : s * 10 ^ e'.toNat * Interval.unit ≤ high := by
  rw [Interval.scale] at hc
  split at hc
  · have hj : j = e'.toNat + e.natAbs := by omega
    have hten : 0 < Nat.pow 10 e.natAbs := Nat.pow_pos (by decide)
    refine Nat.le_of_mul_le_mul_right ?_ hten
    calc s * 10 ^ e'.toNat * Interval.unit * Nat.pow 10 e.natAbs
        = s * 10 ^ j * Interval.unit := by
          rw [hj, Nat.pow_add, Nat.mul_right_comm, ← Nat.mul_assoc s]
          rfl
      _ ≤ c * Interval.unit := Nat.mul_le_mul_right _ hs
      _ ≤ high * Nat.pow 10 e.natAbs := hc
  · have hexponent : e'.toNat = j + e.natAbs := by omega
    calc s * 10 ^ e'.toNat * Interval.unit
        = s * 10 ^ j * (Interval.unit * Nat.pow 10 e.natAbs) := by
          rw [hexponent, Nat.pow_add, ← Nat.mul_assoc s, Nat.mul_assoc, Nat.mul_comm (10 ^ _)]
          rfl
      _ ≤ c * (Interval.unit * Nat.pow 10 e.natAbs) := Nat.mul_le_mul_right _ hs
      _ ≤ high * 1 := hc
      _ = high := Nat.mul_one high

theorem isSome_double?_of_length {n : Numeral} (hn : n.exponent = none)
    (h : n.whole.length ≤ 16) : n.double?.isSome = true := by
  have hdropped := (append_le 0 n.whole).1
  have hs := append_lt (append_lt (n := 0) (by decide) n.whole) (n.fraction.getD [])
  simp only [double?, Option.isSome_map, hn, Option.getD_none]
  refine isSome_scaled? hs fun _ => ?_
  have hlimit : UInt64.size * Nat.pow 10 16 * Interval.unit ≤ limit := by decide +kernel
  refine Nat.le_trans (Nat.mul_le_mul_right _ (Nat.mul_le_mul (Nat.le_of_lt hs) ?_)) hlimit
  exact Nat.pow_le_pow_right (by decide) (by omega)

/-- A numeral with one digit before the point is in range if its digits are the coefficient of a
decimal that is at most the limit, without some zeros at the end. -/
theorem isSome_double?_of_le_limit {n : Numeral} {d c z : Nat} {e : Int} (hwhole : n.whole = [d])
    (hd : d < 10) (hdigits : ofDigits (d :: n.fraction.getD []) * 10 ^ z = c)
    (hexponent : n.exponent.getD 0 = e + z + (n.fraction.getD []).length)
    (hlimit : c * (Interval.scale e).2 ≤ limit * (Interval.scale e).1) :
    n.double?.isSome = true := by
  have hsize : 10 * 0 + d < UInt64.size := by
    rw [UInt64.size]
    omega
  have hfirst : append 0 [d] = (10 * 0 + d, 0) := by rw [append, if_pos hsize, append]
  obtain ⟨hunused, hle⟩ := append_le (10 * 0 + d) (n.fraction.getD [])
  have hs := append_lt hsize (n.fraction.getD [])
  rw [ofDigits, List.foldl_cons] at hdigits
  simp only [double?, Option.isSome_map, hwhole, hfirst]
  generalize append (10 * 0 + d) (n.fraction.getD []) = r at hunused hle hs ⊢
  have hcut : r.1 * 10 ^ (r.2 + z) ≤ c := by
    rw [Nat.pow_add, ← Nat.mul_assoc, ← hdigits]
    exact Nat.mul_le_mul_right _ hle
  exact isSome_scaled? hs fun hpos => mul_le_of_scale hlimit hcut (by omega) hpos

theorem Writes.isSome_double?_of_lt {m : Nat} (hm : m < infinite - 1) {n : Numeral}
    (h : Writes m n) : n.double?.isSome = true := by
  cases h with
  | positional h => exact isSome_double?_of_length rfl h
  | @scientific negative c ds h =>
    obtain ⟨z, hvalue, hlength⟩ :=
      exists_ofDigits_dropZeros (Decimal.shortest layout.tie m).coefficient
    rw [h, List.map_cons] at hvalue
    rw [h, List.length_cons] at hlength
    have hdigit : digitOf c < 10 := digitOf_lt (isDigit_of_mem_dropZeros (h ▸ List.mem_cons_self))
    have hfraction :
        (if ds = [] then none else some (ds.map digitOf)).getD [] = ds.map digitOf := by
      split
      · next hnil =>
        rw [hnil]
        rfl
      · rfl
    -- the next greater magnitude is finite too, so the midpoint to it is at most the limit
    have hmidpoint : unitsOf m + unitsOf (m + 1) ≤ limit :=
      Nat.add_le_add (Binary64.unitsOf_mono (by omega)) (Binary64.unitsOf_mono (by omega))
    have hlimit := Nat.le_trans (Decimal.shortest_le layout.tie m)
      (Nat.mul_le_mul_right _ hmidpoint)
    refine isSome_double?_of_le_limit (z := z) rfl hdigit ?_ ?_ hlimit
    · rw [hfraction, hvalue]
    · rw [hfraction, List.length_map, Option.getD_some]
      omega

theorem Writes.isSome_double?_greatest {n : Numeral} (h : Writes (infinite - 1) n) :
    n.double?.isSome = true := by
  have hshortest : Decimal.shortest layout.tie (infinite - 1) = ⟨17976931348623157, 292⟩ := by
    decide +kernel
  cases h with
  | positional h => exact isSome_double?_of_length rfl h
  | @scientific negative c ds h =>
    have hdigits : Layout.dropZeros (Decimal.digits 17976931348623157) =
        '1' :: "7976931348623157".toList := by decide +kernel
    rw [hshortest, hdigits] at h
    obtain ⟨rfl, rfl⟩ := List.cons.inj h
    rw [hshortest]
    cases negative <;> decide +kernel

theorem Writes.isSome_double? {m : Nat} (hm : m < infinite) {n : Numeral} (h : Writes m n) :
    n.double?.isSome = true := by
  rcases Nat.lt_or_eq_of_le (Nat.le_sub_one_of_lt hm) with hlt | rfl
  · exact h.isSome_double?_of_lt hlt
  · exact h.isSome_double?_greatest

end ParamSweep.Json.Numeral
