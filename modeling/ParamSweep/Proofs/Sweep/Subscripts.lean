import Mathlib.Algebra.Group.Nat.Defs
import Mathlib.Data.List.Forall2
import ParamSweep.Sweep.Runs

/-! # Subscripts in row-major order

The tuples of subscripts below some sizes are written down by nested loops, one for each
size, of which the last is the innermost. Numbering them from zero on gives the tuples
that are computed from the numbers by division.
-/

namespace ParamSweep

def tuples : List Nat → List (List Nat)
  | [] => [[]]
  | size :: sizes => (List.range size).flatMap fun i => (tuples sizes).map (i :: ·)

theorem mem_tuples {is sizes : List Nat} : is ∈ tuples sizes ↔ List.Forall₂ (· < ·) is sizes := by
  induction sizes generalizing is with
  | nil => rw [tuples, List.mem_singleton, List.forall₂_nil_right_iff]
  | cons size sizes ih =>
    rw [tuples, List.mem_flatMap, List.forall₂_cons_right_iff]
    constructor
    · rintro ⟨i, hi, h⟩
      obtain ⟨js, hjs, rfl⟩ := List.mem_map.mp h
      exact ⟨i, js, List.mem_range.mp hi, ih.mp hjs, rfl⟩
    · rintro ⟨i, js, hi, hjs, rfl⟩
      exact ⟨i, List.mem_range.mpr hi, List.mem_map.mpr ⟨js, ih.mpr hjs, rfl⟩⟩

theorem pairwise_tuples (sizes : List Nat) : (tuples sizes).Pairwise (· < ·) := by
  induction sizes with
  | nil => exact List.pairwise_singleton _ _
  | cons size sizes ih =>
    rw [tuples, List.pairwise_flatMap]
    constructor
    · intro i _
      rw [List.pairwise_map]
      exact ih.imp fun h => List.Lex.cons h
    · apply List.pairwise_lt_range.imp
      intro i j hij x hx y hy
      obtain ⟨js, -, rfl⟩ := List.mem_map.mp hx
      obtain ⟨ks, -, rfl⟩ := List.mem_map.mp hy
      exact List.Lex.rel hij

theorem range_mul (m n : Nat) :
    List.range (m * n) = (List.range m).flatMap fun i => (List.range n).map (i * n + ·) := by
  induction m with
  | zero => simp
  | succ m ih =>
    rw [Nat.succ_mul, List.range_add, ih, List.range_succ, List.flatMap_append,
      List.flatMap_singleton]

theorem subscriptsAndRest_cons {size : Nat} (h : size ≠ 0) (n : Nat) (sizes : List Nat) :
    subscriptsAndRest n (size :: sizes) =
      ((subscriptsAndRest n sizes).2 % size :: (subscriptsAndRest n sizes).1,
        (subscriptsAndRest n sizes).2 / size) := by
  simp only [subscriptsAndRest, if_neg h]

theorem subscriptsAndRest_eq {sizes : List Nat} (h : 0 < sizes.prod) (n : Nat) :
    subscriptsAndRest n sizes = (subscripts (n % sizes.prod) sizes, n / sizes.prod) := by
  induction sizes generalizing n with
  | nil => simp [subscriptsAndRest, subscripts]
  | cons size sizes ih =>
    rw [List.prod_cons] at h ⊢
    have hs : size ≠ 0 := fun hz => by simp [hz] at h
    have hp : 0 < sizes.prod := Nat.pos_of_mul_pos_left h
    have hm : n % (size * sizes.prod) % sizes.prod = n % sizes.prod := Nat.mod_mul_left_mod _ _ _
    have hd : n % (size * sizes.prod) / sizes.prod = n / sizes.prod % size :=
      Nat.mod_mul_left_div_self _ _ _
    rw [subscripts, subscriptsAndRest_cons hs, subscriptsAndRest_cons hs, ih hp, ih hp, hm, hd,
      Nat.mod_mod, Nat.div_div_eq_div_mul, Nat.mul_comm sizes.prod]

theorem subscripts_cons {size : Nat} {sizes : List Nat} {i c : Nat} (hi : i < size)
    (hc : c < sizes.prod) :
    subscripts (i * sizes.prod + c) (size :: sizes) = i :: subscripts c sizes := by
  have hp : 0 < sizes.prod := Nat.zero_lt_of_lt hc
  have hm : (i * sizes.prod + c) % sizes.prod = c := by
    rw [Nat.mul_add_mod_self_right, Nat.mod_eq_of_lt hc]
  have hd : (i * sizes.prod + c) / sizes.prod = i := by
    rw [Nat.add_comm, Nat.add_mul_div_right _ _ hp, Nat.div_eq_of_lt hc, Nat.zero_add]
  rw [subscripts, subscriptsAndRest_cons (Nat.ne_zero_of_lt hi), subscriptsAndRest_eq hp, hm, hd,
    Nat.mod_eq_of_lt hi]

/-- The numbers below the product of the sizes have the tuples as their subscripts, in order. -/
theorem tuples_eq_map (sizes : List Nat) :
    tuples sizes = (List.range sizes.prod).map (subscripts · sizes) := by
  induction sizes with
  | nil => rfl
  | cons size sizes ih =>
    rw [tuples, List.prod_cons, range_mul, List.map_flatMap]
    refine List.flatMap_congr fun i hi => ?_
    rw [ih, List.map_map, List.map_map]
    refine List.map_congr_left fun c hc => ?_
    exact (subscripts_cons (List.mem_range.mp hi) (List.mem_range.mp hc)).symm

/-- Greater numbers have greater tuples of subscripts. -/
theorem subscripts_lt {sizes : List Nat} {c d : Nat} (hcd : c < d) (hd : d < sizes.prod) :
    subscripts c sizes < subscripts d sizes := by
  have h := pairwise_tuples sizes
  rw [tuples_eq_map, List.pairwise_map, List.pairwise_iff_getElem] at h
  have hlt := h c d (by rw [List.length_range]; omega) (by rwa [List.length_range]) hcd
  rwa [List.getElem_range, List.getElem_range] at hlt

theorem eq_of_subscripts_eq {sizes : List Nat} {c d : Nat} (hc : c < sizes.prod)
    (hd : d < sizes.prod) (h : subscripts c sizes = subscripts d sizes) : c = d := by
  rcases Nat.lt_trichotomy c d with hlt | heq | hlt
  · exact absurd (h ▸ subscripts_lt hlt hd) (List.lt_irrefl _)
  · exact heq
  · exact absurd (h ▸ subscripts_lt hlt hc) (List.lt_irrefl _)

theorem foldl_min_mul (sizes : List Nat) {n limit : Nat} (h : n ≤ limit) :
    sizes.foldl (fun n size => min (n * size) limit) n = min (n * sizes.prod) limit := by
  induction sizes generalizing n with
  | nil => simp [Nat.min_eq_left h]
  | cons size sizes ih =>
    rw [List.foldl_cons, ih (Nat.min_le_right _ _), List.prod_cons, ← Nat.mul_assoc]
    rcases Nat.le_total (n * size) limit with hle | hle
    · rw [Nat.min_eq_left hle]
    · rw [Nat.min_eq_right hle]
      rcases Nat.eq_zero_or_pos sizes.prod with hz | hp
      · rw [hz, Nat.mul_zero, Nat.mul_zero]
      · rw [Nat.min_eq_right (Nat.le_mul_of_pos_right _ hp),
          Nat.min_eq_right (Nat.le_trans hle (Nat.le_mul_of_pos_right _ hp))]

namespace Sweep

theorem countOf_eq_min (sizes : List Nat) : countOf sizes = min sizes.prod countLimit := by
  rw [countOf, foldl_min_mul sizes (by decide), Nat.one_mul]

theorem countOf_eq_prod {sizes : List Nat} (h : sizes.prod ≤ countLimit) :
    countOf sizes = sizes.prod := by
  rw [countOf_eq_min, Nat.min_eq_left h]

theorem lt_prod_of_lt_combinationCount {s : Sweep} {c : Nat} (h : c < s.combinationCount) :
    c < s.sizes.prod := by
  rw [combinationCount, countOf_eq_min] at h
  exact Nat.lt_of_lt_of_le h (Nat.min_le_left _ _)

end Sweep

end ParamSweep
