import ParamSweep.Generator
import ParamSweep.Proofs.Binary64.Arithmetic

/-! # Evenly spaced doubles

Evenly spaced doubles are as many as asked for and end with their stop. They begin with their start
and all of them are finite, unless the way from start to stop is so long that it is rounded to
infinity, or they are so many that a step is lost in what their distances are rounded by.
-/

namespace ParamSweep.Generator

open Binary64

variable {start stop x y : Binary64} {num i : Nat}

def stride (start stop : Binary64) (num : Nat) : Binary64 := (stop - start) / .ofNat (num - 1)

def point (start stop : Binary64) (num i : Nat) : Binary64 :=
  start + .ofNat i * stride start stop num

theorem spaced_eq (h : 2 ≤ num) :
    spaced start stop num = (List.range (num - 1)).map (point start stop num) ++ [stop] := by
  rw [spaced, if_neg (by omega), if_neg (by omega)]
  rfl

theorem length_spaced (h : 2 ≤ num) : (spaced start stop num).length = num := by
  rw [spaced_eq h, List.length_append, List.length_map, List.length_range, List.length_singleton]
  omega

theorem getElem?_spaced (h : 2 ≤ num) (hi : i < num - 1) :
    (spaced start stop num)[i]? = some (point start stop num i) := by
  rw [spaced_eq h, List.getElem?_append_left (by simpa using hi), List.getElem?_map,
    List.getElem?_range hi, Option.map_some]

theorem mem_spaced (h : 2 ≤ num) :
    x ∈ spaced start stop num ↔ (∃ i, i < num - 1 ∧ point start stop num i = x) ∨ x = stop := by
  simp [spaced_eq h]

/-! ### The way to a point -/

theorem steps_lt {d n : Nat} (hn : n ≤ hiddenBit) (hi : i < n) :
    i * unitsOf (nearest d n) ≤ 2 * hiddenBit * hiddenBit ∨
      i * unitsOf (nearest d n) ≤ d ∧ unitsOf (nearest (i * unitsOf (nearest d n)) 1) < d := by
  have hb : 0 < hiddenBit := by decide
  rcases Nat.lt_or_ge (d / n) (2 * hiddenBit) with hsmall | hlarge
  · -- a step of 53 bits
    left
    have hr : roundDiv d n ≤ 2 * hiddenBit := by
      simp only [roundDiv]
      split <;> omega
    rw [nearest_of_lt hsmall, unitsOf_of_le hr, Nat.mul_comm]
    exact Nat.mul_le_mul hr (by omega)
  · have hd : 0 < d := Nat.pos_of_ne_zero fun h => by
      rw [h, Nat.zero_div] at hlarge
      omega
    have hstep := mul_unitsOf_nearest_le (by omega) hlarge
    generalize unitsOf (nearest d n) = p at hstep ⊢
    rcases Nat.lt_or_ge (i * p) (2 * hiddenBit) with hsmall | hlarge
    · left
      exact Nat.le_trans (Nat.le_of_lt hsmall) (Nat.le_mul_of_pos_right _ hb)
    · right
      have hway := mul_unitsOf_nearest_le Nat.one_pos (n := i * p) (by rwa [Nat.div_one])
      rw [Nat.one_mul] at hway
      generalize unitsOf (nearest (i * p) 1) = t at hway ⊢
      -- A step that is left out outweighs what two roundings add to all of them.
      have hone : i * (2 * hiddenBit + 1) ≤ 2 * hiddenBit * n := by
        unfold hiddenBit at hn ⊢
        omega
      have htwo : (2 * hiddenBit + 1) * (2 * hiddenBit + 1) * i <
          2 * hiddenBit * n * (2 * hiddenBit) := by
        unfold hiddenBit at hn ⊢
        omega
      have hpos : 0 < 2 * hiddenBit * n := Nat.mul_pos (Nat.mul_pos Nat.two_pos hb) (by omega)
      have hsteps : 2 * hiddenBit * n * (i * p) ≤ i * (2 * hiddenBit + 1) * d := by
        calc 2 * hiddenBit * n * (i * p) = i * (2 * hiddenBit * (n * p)) := by ring
          _ ≤ i * ((2 * hiddenBit + 1) * d) := Nat.mul_le_mul_left i hstep
          _ = i * (2 * hiddenBit + 1) * d := (Nat.mul_assoc _ _ _).symm
      constructor
      · exact Nat.le_of_mul_le_mul_left (Nat.le_trans hsteps (Nat.mul_le_mul_right d hone)) hpos
      · refine Nat.lt_of_mul_lt_mul_left (a := 2 * hiddenBit * n * (2 * hiddenBit)) ?_
        calc 2 * hiddenBit * n * (2 * hiddenBit) * t
            = 2 * hiddenBit * n * (2 * hiddenBit * t) := Nat.mul_assoc _ _ _
          _ ≤ 2 * hiddenBit * n * ((2 * hiddenBit + 1) * (i * p)) := Nat.mul_le_mul_left _ hway
          _ = (2 * hiddenBit + 1) * (2 * hiddenBit * n * (i * p)) := Nat.mul_left_comm _ _ _
          _ ≤ (2 * hiddenBit + 1) * (i * (2 * hiddenBit + 1) * d) := Nat.mul_le_mul_left _ hsteps
          _ = (2 * hiddenBit + 1) * (2 * hiddenBit + 1) * i * d := by ring
          _ < 2 * hiddenBit * n * (2 * hiddenBit) * d := Nat.mul_lt_mul_of_pos_right htwo hd

theorem natAbs_units_add_le (hx : x.isFinite = true) (hy : y.isFinite = true) {t : Binary64}
    (hsize : unitsOf t.magnitude ≤ (y.units - x.units).natAbs ∨ unitsOf t.magnitude ≤ 1 <<< 2045)
    (hsign : y.units - x.units ≠ 0 → t.isNegative = decide (y.units - x.units < 0))
    (hzero : y.units - x.units = 0 → t.units = 0) : (x.units + t.units).natAbs ≤ greatest := by
  have hle {z : Binary64} (hz : z.isFinite = true) : z.units.natAbs ≤ greatest :=
    natAbs_units z ▸ unitsOf_le (of_decide_eq_true hz)
  have hxle := hle hx
  have hyle := hle hy
  rcases lt_trichotomy x.units y.units with h | h | h
  · have hgap := units_add_le hy h
    have ht : t.units = unitsOf t.magnitude := by
      rw [units, hsign (by omega), decide_eq_false (by omega), if_neg Bool.false_ne_true]
    rw [ht]
    generalize 1 <<< 2045 = g at *
    omega
  · rw [hzero (by omega), Int.add_zero]
    exact hxle
  · have hback : (-x).units < (-y).units := by
      rw [units_neg hx, units_neg hy]
      omega
    have hgap := units_add_le (isFinite_neg hy) hback
    have ht : t.units = -(unitsOf t.magnitude : Int) := by
      rw [units, hsign (by omega), decide_eq_true (by omega), if_pos rfl]
    rw [units_neg hx] at hgap
    rw [ht]
    generalize 1 <<< 2045 = g at *
    omega

/-- The way of some steps: it has the direction of the whole way, and is less than this or very
little, or nothing if this is nothing. -/
theorem steps_spec (hway : x.isFinite = true) {n : Nat} (hn : n ≤ hiddenBit) (hi : i < n) :
    let t := .ofNat i * (x / .ofNat n)
    t.isFinite = true ∧ t.isNegative = x.isNegative ∧
      (unitsOf t.magnitude < unitsOf x.magnitude ∨ unitsOf t.magnitude ≤ 1 <<< 2045) ∧
      (x.units = 0 → t.units = 0) := by
  intro t
  have hn' : n ≤ 2 * hiddenBit := by omega
  have hd : unitsOf x.magnitude ≤ greatest := unitsOf_le (of_decide_eq_true hway)
  obtain ⟨hsign, hmagnitude⟩ := div_ofNat (by omega) hn' hway
  have hstride : (x / .ofNat n).isFinite = true := by
    rw [isFinite, hmagnitude]
    exact decide_eq_true (nearest_lt_infinite (by omega)
      (Nat.le_trans hd (Nat.le_mul_of_pos_left _ (by omega))))
  obtain ⟨hsign', hmagnitude'⟩ := ofNat_mul (n := i) (by omega) hstride
  rw [hmagnitude] at hmagnitude'
  have hlast : unitsOf (nearest (1 <<< 2045) 1) = 1 <<< 2045 := by decide +kernel
  have hsmall : 2 * hiddenBit * hiddenBit ≤ 1 <<< 2045 := by decide +kernel
  have hlarge : 1 <<< 2045 ≤ greatest := by decide +kernel
  refine ⟨?_, hsign'.trans hsign, ?_, fun hzero => ?_⟩
  · rw [isFinite, hmagnitude']
    refine decide_eq_true (nearest_lt_infinite Nat.one_pos ?_)
    rw [Nat.one_mul]
    rcases steps_lt hn hi with h | ⟨h, -⟩
    · exact Nat.le_trans h (Nat.le_trans hsmall hlarge)
    · exact Nat.le_trans h hd
  · rw [hmagnitude']
    rcases steps_lt hn hi with h | ⟨-, h⟩
    · exact .inr (hlast ▸ unitsOf_mono (nearest_mono (Nat.le_trans h hsmall)))
    · exact .inl h
  · have hx : unitsOf x.magnitude = 0 := by
      rw [← natAbs_units, hzero]
      rfl
    rw [hx, nearest_zero, unitsOf_of_le (Nat.zero_le _), Nat.mul_zero, nearest_zero] at hmagnitude'
    exact units_of_isZero (beq_iff_eq.mpr hmagnitude')

theorem isFinite_point (hstart : start.isFinite = true) (hstop : stop.isFinite = true)
    (hway : (stop - start).isFinite = true) (hnum : num ≤ hiddenBit + 1) (hi : i < num - 1) :
    (point start stop num i).isFinite = true := by
  have hbound : greatest < boundless := by decide +kernel
  have hmagnitude := magnitude_sub hstop hstart
  obtain ⟨hfinite, hsign, hsize, hzero⟩ := steps_spec hway (n := num - 1) (by omega) hi
  rw [point, stride, isFinite_add_iff hstart hfinite]
  refine Nat.lt_of_le_of_lt (natAbs_units_add_le hstart hstop ?_ ?_ ?_) hbound
  · -- what is less than the rounded way is not more than the way
    refine hsize.imp_left fun h => ?_
    rw [hmagnitude] at h
    exact unitsOf_le_of_lt_nearest (of_decide_eq_true hfinite) h
  · intro hne
    rw [hsign, isNegative_sub hstop hstart hne]
  · intro heq
    rw [heq] at hmagnitude
    exact hzero (units_of_isZero (beq_iff_eq.mpr (hmagnitude.trans (nearest_zero 1))))

/-! ### All points -/

theorem isFinite_stride (hway : (stop - start).isFinite = true) (h : 2 ≤ num)
    (hnum : num < 2 ^ 64) : (stride start stop num).isFinite = true :=
  isFinite_div hway (isFinite_iff.mp (isFinite_ofNat (by omega))).1
    (oneMagnitude_le_ofNat (by omega))

theorem point_zero_beq (hstart : start.isFinite = true) (hway : (stop - start).isFinite = true)
    (h : 2 ≤ num) (hnum : num < 2 ^ 64) : (point start stop num 0 == start) = true := by
  refine add_beq_self hstart (beq_iff_eq.mpr ?_)
  rw [(ofNat_mul (Nat.zero_le _) (isFinite_stride hway h hnum)).2, Nat.zero_mul, nearest_zero]

theorem isNaN_point (hstart : start.isFinite = true) (hway : (stop - start).isFinite = true)
    (h : 2 ≤ num) (hnum : num < 2 ^ 64) (hi : i < num) :
    (point start stop num i).isNaN = false := by
  refine isNaN_add hstart ?_
  rw [mul_eq (isFinite_ofNat (by omega)) (isFinite_stride hway h hnum)]
  exact isNaN_nearest _ _ _

theorem isInfinite_stride (hstart : start.isFinite = true) (hstop : stop.isFinite = true)
    (hway : ¬ (stop - start).isFinite = true) (hnum : num < 2 ^ 64) :
    (stride start stop num).isInfinite = true := by
  refine div_ofNat_of_isInfinite (by omega) ?_
  cases hinf : (stop - start).isInfinite with
  | true => rfl
  | false => exact absurd (isFinite_iff.mpr ⟨isNaN_sub hstop hstart, hinf⟩) hway

/-- Evenly spaced doubles between finite ones are as many as asked for, and the last one is the
stop. If the way from start to stop is not rounded to infinity, the first one is equal to the start,
all are numbers, and all are finite if they are at most 2 ^ 52 + 1. On a longer way the first is no
number, and those between it and the last are infinite. -/
theorem spaced_spec {num : UInt64} (hstart : start.isFinite = true) (hstop : stop.isFinite = true)
    (hnum : 2 ≤ num) :
    let xs := spaced start stop num.toNat
    let way := (stop.units - start.units).natAbs
    (linspace start stop num).values = .ok (xs.map .float) ∧
    xs.length = num.toNat ∧ xs.getLast? = some stop ∧
    (way < boundless →
      (∃ x, xs.head? = some x ∧ (x == start) = true) ∧ (∀ x ∈ xs, x.isNaN = false) ∧
      (num.toNat ≤ 2 ^ 52 + 1 → ∀ x ∈ xs, x.isFinite = true)) ∧
    (boundless ≤ way →
      (∃ x, xs.head? = some x ∧ x.isNaN = true) ∧
      ∀ i, 0 < i → i + 1 < num.toNat → ∃ x, xs[i]? = some x ∧ x.isInfinite = true) := by
  intro xs way
  have h : 2 ≤ num.toNat := hnum
  have hlt : num.toNat < 2 ^ 64 := num.toNat_lt
  have hhead : xs.head? = some (point start stop num.toNat 0) := by
    rw [List.head?_eq_getElem?]
    exact getElem?_spaced h (by omega)
  have hfinite : (stop - start).isFinite = true ↔ way < boundless := isFinite_sub_iff hstop hstart
  refine ⟨rfl, length_spaced h, ?_, fun hway => ?_, fun hway => ?_⟩
  · rw [show xs = _ from spaced_eq h, List.getLast?_concat]
  · have hway := hfinite.mpr hway
    refine ⟨⟨_, hhead, point_zero_beq hstart hway h hlt⟩, fun x hx => ?_, fun hmany x hx => ?_⟩
    · rcases (mem_spaced h).mp hx with ⟨i, hi, rfl⟩ | rfl
      · exact isNaN_point hstart hway h hlt (by omega)
      · exact (isFinite_iff.mp hstop).1
    · rcases (mem_spaced h).mp hx with ⟨i, hi, rfl⟩ | rfl
      · exact isFinite_point hstart hstop hway hmany hi
      · exact hstop
  · have hstride := isInfinite_stride hstart hstop (mt hfinite.mp (Nat.not_lt_of_le hway)) hlt
    refine ⟨⟨_, hhead, add_of_isNaN (zero_mul_of_isInfinite hstride)⟩, fun i hpos hi => ?_⟩
    refine ⟨_, getElem?_spaced h (by omega), ?_⟩
    have hsteps := ofNat_mul_of_isInfinite hpos (by omega) hstride
    rwa [point, add_of_isInfinite hstart hsteps]

/-- From the least finite number to zero the way is the longest that a double measures. -/
theorem spaced_spec_of_least :
    let start : Binary64 := ⟨0xffefffffffffffff⟩
    let stop : Binary64 := zero false
    let xs := spaced start stop 1000000
    start.isFinite = true ∧ stop.isFinite = true ∧ (2 : UInt64) ≤ 1000000 ∧
      xs.length = 1000000 ∧ xs.getLast? = some stop ∧
      (∃ x, xs.head? = some x ∧ (x == start) = true) ∧ ∀ x ∈ xs, x.isFinite = true := by
  intro start stop xs
  have hstart : start.isFinite = true := by decide
  have hstop : stop.isFinite = true := by decide
  have hnum : (2 : UInt64) ≤ 1000000 := by decide
  obtain ⟨-, hlength, hlast, hway, -⟩ := spaced_spec hstart hstop hnum
  obtain ⟨hfirst, -, hfinite⟩ := hway (by decide +kernel)
  exact ⟨hstart, hstop, hnum, hlength, hlast, hfirst, hfinite (by decide)⟩

/-- From the least finite number to the greatest the way is rounded to infinity, so that the first
of evenly spaced doubles is no number. -/
theorem spaced_of_endless_way :
    let start : Binary64 := ⟨0xffefffffffffffff⟩
    let stop : Binary64 := ⟨0x7fefffffffffffff⟩
    start.isFinite = true ∧ stop.isFinite = true ∧ spaced start stop 2 = [nan, stop] ∧
      (nan == start) = false ∧ nan.isFinite = false := by
  decide +kernel

/-- Of more than 2 ^ 52 + 1 doubles on a finite way, one can be infinite. -/
theorem spaced_of_many :
    let start : Binary64 := ⟨0x7fdfffffedd4afd7⟩
    let stop : Binary64 := ⟨0x7fefffffffffffff⟩
    (stop - start).isFinite = true ∧
      (spaced start stop 4503599763207506)[4503599763207504]? = some (infinity false) := by
  intro start stop
  refine ⟨by decide +kernel, ?_⟩
  rw [getElem?_spaced (by decide) (by decide)]
  decide +kernel

end ParamSweep.Generator
