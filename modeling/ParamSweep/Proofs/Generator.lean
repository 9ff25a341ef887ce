import Mathlib.Data.List.Nodup
import Mathlib.Data.Rat.Floor
import ParamSweep.Generator

/-! # Counting in steps

A range counts from its start in whole steps as long as it has not come to its end. Counting
stops early where the next integer would not fit in 64 bits, but an end that fits has been
passed by then. So the integers are those of exact arithmetic, and as many as there are steps
up to the end.
-/

namespace ParamSweep.Generator

variable {start stop step n : Int}

def Fits (n : Int) : Prop := Int64.minValue.toInt ≤ n ∧ n ≤ Int64.maxValue.toInt

theorem fits_toInt (i : Int64) : Fits i.toInt := ⟨i.minValue_le_toInt, i.toInt_le⟩

theorem toInt_ofInt (h : Fits n) : (Int64.ofInt n).toInt = n := by
  unfold Fits at h
  simp only [Int64.toInt_minValue, Int64.toInt_maxValue] at h
  exact Int64.toInt_ofInt_of_le h.1 (by omega)

/-- How many steps there are from `start` to `stop`, a last one that goes too far among them;
none if they lead away. -/
def steps (start stop step : Int) : Nat := ⌈((stop - start : Int) : ℚ) / step⌉.toNat

theorem before_iff (h : step ≠ 0) :
    before step stop n = true ↔ 0 < step ∧ n < stop ∨ step < 0 ∧ stop < n := by
  unfold before
  split <;> simp <;> omega

theorem before_of_before_add (h : step ≠ 0) {k : Nat}
    (hk : before step stop (n + k * step) = true) : before step stop n = true := by
  have hnonneg : (0 : Int) ≤ k := Int.natCast_nonneg k
  simp only [before_iff h] at hk ⊢
  rcases hk with ⟨hs, hk⟩ | ⟨hs, hk⟩
  · have : 0 ≤ k * step := Int.mul_nonneg hnonneg hs.le
    omega
  · have : k * step ≤ 0 := Int.mul_nonpos_of_nonneg_of_nonpos hnonneg hs.le
    omega

/-- A number of steps is below that up to the end if what they lead to is before the end. -/
theorem lt_steps_iff (h : step ≠ 0) {k : Nat} :
    k < steps start stop step ↔ before step stop (start + k * step) = true := by
  have hdiv : k < steps start stop step ↔ (k : ℚ) < ((stop - start : Int) : ℚ) / step := by
    simp [steps, Int.lt_toNat, Int.lt_ceil]
  rw [hdiv, before_iff h]
  rcases Int.lt_or_gt_of_ne h with hs | hs
  · rw [lt_div_iff_of_neg (by exact_mod_cast hs)]
    norm_cast
    omega
  · rw [lt_div_iff₀ (by exact_mod_cast hs)]
    norm_cast
    omega

theorem not_before_add (h : step ≠ 0) (hn : Fits n) (hstop : Fits stop)
    (hnext : ¬ Fits (n + step)) : ¬ before step stop (n + step) = true := by
  simp only [before_iff h, Fits] at *
  omega

/-- Counting gives the integers at whole steps that are before the end, and nothing else. -/
theorem getElem?_countFrom (h : step ≠ 0) (hn : Fits n) (hstop : Fits stop) (k : Nat) :
    (countFrom stop step h n)[k]?.map Int64.toInt =
      if before step stop (n + k * step) then some (n + k * step) else none := by
  fun_induction countFrom stop step h n generalizing k with
  | case1 n hbefore ih =>
    cases k with
    | zero => simp [hbefore, toInt_ofInt hn]
    | succ k =>
      have hk : n + (k + 1 : Nat) * step = n + step + k * step := by push_cast; ring
      rw [List.getElem?_cons_succ, hk]
      split
      · next hnext => exact ih hnext k
      · next hnext =>
        -- the early end: what follows would not be counted
        have hlater : ¬ before step stop (n + step + k * step) = true := fun hk =>
          not_before_add h hn hstop hnext (before_of_before_add h hk)
        simp [hlater]
  | case2 n hbefore =>
    have hlater : ¬ before step stop (n + k * step) = true := fun hk =>
      hbefore (before_of_before_add h hk)
    simp [hlater]

theorem map_toInt_countFrom (h : step ≠ 0) (hstart : Fits start) (hstop : Fits stop) :
    (countFrom stop step h start).map Int64.toInt =
      (List.range (steps start stop step)).map fun k : Nat => start + k * step := by
  apply List.ext_getElem?
  intro k
  rw [List.getElem?_map, getElem?_countFrom h hstart hstop, List.getElem?_map]
  split
  · next hk => simp [List.getElem?_range ((lt_steps_iff h).mpr hk)]
  · next hk =>
    have hle : steps start stop step ≤ k :=
      Nat.le_of_not_lt fun hlt => hk ((lt_steps_iff h).mp hlt)
    simp [hle]

theorem length_countFrom (h : step ≠ 0) (hstart : Fits start) (hstop : Fits stop) :
    (countFrom stop step h start).length = steps start stop step := by
  simpa using congrArg List.length (map_toInt_countFrom h hstart hstop)

theorem nodup_countFrom (h : step ≠ 0) (hstart : Fits start) (hstop : Fits stop) :
    (countFrom stop step h start).Nodup := by
  apply List.Nodup.of_map Int64.toInt
  rw [map_toInt_countFrom h hstart hstop]
  apply List.Nodup.map _ List.nodup_range
  intro i j hij
  simpa [h] using hij

/-- A range fails exactly if its step is zero. Otherwise it has the integers that whole steps
from its start lead to in exact arithmetic, in turn, as long as they are before its stop, and none
of them twice. They are as many as the steps up to the stop, rounded up. -/
theorem counted?_spec (start stop step : Int64) :
    (counted? start stop step = none ↔ step = 0) ∧
      ((range start stop step).values = .error "range step must be non-zero" ↔ step = 0) ∧
      (step ≠ 0 → ∃ ns, counted? start stop step = some ns ∧
        (range start stop step).values = .ok (ns.map .int) ∧
        ns.map Int64.toInt =
          (List.range ns.length).map (fun k : Nat => start.toInt + k * step.toInt) ∧
        (∀ k : Nat, k < ns.length ↔
          0 < step.toInt ∧ start.toInt + k * step.toInt < stop.toInt ∨
            step.toInt < 0 ∧ stop.toInt < start.toInt + k * step.toInt) ∧
        (ns.length : Int) = max 0 ⌈((stop.toInt - start.toInt : Int) : ℚ) / step.toInt⌉ ∧
        ns.Nodup) := by
  by_cases h : step = 0
  · subst h
    have hnone : counted? start stop 0 = none := dif_pos Int64.toInt_zero
    simp [hnone, values]
  · have hstep : step.toInt ≠ 0 := by
      rwa [ne_eq, ← Int64.toInt_zero, Int64.toInt_inj]
    have hsome : counted? start stop step =
        some (countFrom stop.toInt step.toInt hstep start.toInt) := dif_neg hstep
    have hvalues : (range start stop step).values =
        .ok ((countFrom stop.toInt step.toInt hstep start.toInt).map .int) := by
      rw [values, hsome]
    have hlength := length_countFrom hstep (fits_toInt start) (fits_toInt stop)
    refine ⟨by simp [hsome, h], by simp [hvalues, h], fun _ => ⟨_, hsome, hvalues, ?_⟩⟩
    refine ⟨?_, ?_, ?_, nodup_countFrom hstep (fits_toInt start) (fits_toInt stop)⟩
    · rw [hlength]
      exact map_toInt_countFrom hstep (fits_toInt start) (fits_toInt stop)
    · intro k
      rw [hlength, lt_steps_iff hstep, before_iff hstep]
    · rw [hlength, steps, Int.toNat_eq_max, max_comm]

/-- From the greatest integer down to the least in steps of the least one: neither the way nor the
integer after the second fits in 64 bits. -/
theorem counted?_spec_of_limits :
    let ns : List Int64 := [Int64.maxValue, -1]
    counted? Int64.maxValue Int64.minValue Int64.minValue = some ns ∧
      (range Int64.maxValue Int64.minValue Int64.minValue).values = .ok (ns.map .int) := by
  intro ns
  obtain ⟨-, -, hsome⟩ := counted?_spec Int64.maxValue Int64.minValue Int64.minValue
  obtain ⟨ms, hms, hvalues, hmap, -, hlength, -⟩ := hsome (by decide)
  have htwo : ms.length = 2 := by
    rw [Int64.toInt_minValue, Int64.toInt_maxValue] at hlength
    norm_num at hlength
    exact_mod_cast hlength
  have heq : ms = ns := by
    apply List.map_injective_iff.mpr (fun _ _ => Int64.toInt_inj.mp)
    rw [hmap, htwo]
    decide
  exact ⟨heq ▸ hms, heq ▸ hvalues⟩

end ParamSweep.Generator
