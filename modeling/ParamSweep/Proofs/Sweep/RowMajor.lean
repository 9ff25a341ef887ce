import Mathlib.Algebra.BigOperators.Ring.List
import Mathlib.Algebra.GroupWithZero.Nat
import Mathlib.Data.Set.Function
import Mathlib.Tactic.Ring
import ParamSweep.Proofs.Sweep.Subscripts

/-! # Row-major numbers

Subscripts have a number in row-major order, which is found by multiplication from the first
size to the last. Division from the last size to the first finds the subscripts of a number
again. What is left of the number on the way and the subscripts found so far always make up
the whole number, so that nothing of it is lost.
-/

namespace ParamSweep

variable {sizes is : List Nat} {size n : Nat}

def rowMajor (sizes is : List Nat) : Nat := (is.zip sizes).foldl (fun n p => n * p.2 + p.1) 0

/-- The subscripts that are left when the sizes that are zero are deleted. -/
def withoutEmpty (sizes is : List Nat) : List Nat :=
  ((is.zip sizes).filter (·.2 ≠ 0)).map (·.1)

theorem withoutEmpty_zero_cons (i : Nat) :
    withoutEmpty (0 :: sizes) (i :: is) = withoutEmpty sizes is := by
  simp [withoutEmpty]

theorem withoutEmpty_cons (h : size ≠ 0) (i : Nat) :
    withoutEmpty (size :: sizes) (i :: is) = i :: withoutEmpty sizes is := by
  simp [withoutEmpty, h]

theorem foldl_rowMajor (h : is.length = sizes.length) (n : Nat) :
    (is.zip sizes).foldl (fun n p => n * p.2 + p.1) n = n * sizes.prod + rowMajor sizes is := by
  induction sizes generalizing is n with
  | nil => simp [rowMajor]
  | cons size sizes ih =>
    obtain ⟨i, is, rfl⟩ := List.exists_cons_of_length_eq_add_one h
    have hl : is.length = sizes.length := Nat.succ.inj h
    rw [rowMajor, List.zip_cons_cons, List.foldl_cons, List.foldl_cons, ih hl, ih hl,
      List.prod_cons]
    ring

theorem rowMajor_cons (h : is.length = sizes.length) (i size : Nat) :
    rowMajor (size :: sizes) (i :: is) = i * sizes.prod + rowMajor sizes is := by
  rw [rowMajor, List.zip_cons_cons, List.foldl_cons, foldl_rowMajor h, Nat.zero_mul, Nat.zero_add]

theorem rowMajor_lt (h : List.Forall₂ (· < ·) is sizes) : rowMajor sizes is < sizes.prod := by
  induction h with
  | nil => exact Nat.one_pos
  | @cons i size is sizes hi his ih =>
    rw [rowMajor_cons his.length_eq, List.prod_cons]
    calc i * sizes.prod + rowMajor sizes is
      _ < i * sizes.prod + sizes.prod := Nat.add_lt_add_left ih _
      _ = (i + 1) * sizes.prod := (Nat.succ_mul _ _).symm
      _ ≤ size * sizes.prod := Nat.mul_le_mul_right _ hi

theorem subscripts_zero_cons (n : Nat) (sizes : List Nat) :
    subscripts n (0 :: sizes) = 0 :: subscripts n sizes := rfl

theorem subscripts_cons_of_ne_zero (h : size ≠ 0) (n : Nat) (sizes : List Nat) :
    subscripts n (size :: sizes) =
      (subscriptsAndRest n sizes).2 % size :: subscripts n sizes := by
  simp [subscripts, subscriptsAndRest_cons h]

theorem length_subscripts (n : Nat) (sizes : List Nat) :
    (subscripts n sizes).length = sizes.length := by
  induction sizes with
  | nil => rfl
  | cons size sizes ih =>
    rcases eq_or_ne size 0 with rfl | hs
    · simp [subscripts_zero_cons, ih]
    · simp [subscripts_cons_of_ne_zero hs, ih]

theorem getElem?_subscripts_of_zero (n : Nat) {j : Nat} (h : sizes[j]? = some 0) :
    (subscripts n sizes)[j]? = some 0 := by
  induction sizes generalizing j with
  | nil => cases h
  | cons size sizes ih =>
    cases j with
    | zero =>
      obtain rfl := Option.some.inj h
      rfl
    | succ j =>
      rcases eq_or_ne size 0 with rfl | hs
      · exact ih h
      · rw [subscripts_cons_of_ne_zero hs]
        exact ih h

theorem subscriptsAndRest_filter (n : Nat) (sizes : List Nat) :
    subscriptsAndRest n (sizes.filter (· ≠ 0)) =
      (withoutEmpty sizes (subscripts n sizes), (subscriptsAndRest n sizes).2) := by
  induction sizes with
  | nil => rfl
  | cons size sizes ih =>
    rcases eq_or_ne size 0 with rfl | hs
    · rw [List.filter_cons_of_neg (by simp), ih, subscripts_zero_cons, withoutEmpty_zero_cons]
      rfl
    · rw [List.filter_cons_of_pos (by simpa using hs), subscriptsAndRest_cons hs, ih,
        subscripts_cons_of_ne_zero hs, withoutEmpty_cons hs, subscriptsAndRest_cons hs]

/-- The subscripts of a number are in range, and with what is left they make up the number. -/
theorem subscriptsAndRest_spec (h : 0 ∉ sizes) (n : Nat) :
    List.Forall₂ (· < ·) (subscripts n sizes) sizes ∧
      (subscriptsAndRest n sizes).2 * sizes.prod + rowMajor sizes (subscripts n sizes) = n := by
  induction sizes with
  | nil => simp [subscripts, subscriptsAndRest, rowMajor]
  | cons size sizes ih =>
    obtain ⟨hne, hsizes⟩ := List.ne_and_not_mem_of_not_mem_cons h
    obtain ⟨hrange, hnumber⟩ := ih hsizes
    have hs : size ≠ 0 := hne.symm
    rw [subscripts_cons_of_ne_zero hs, subscriptsAndRest_cons hs]
    constructor
    · exact .cons (Nat.mod_lt _ (Nat.pos_of_ne_zero hs)) hrange
    · -- what the later sizes have left is divided once more, and its remainder weighs their product
      rw [rowMajor_cons hrange.length_eq, List.prod_cons]
      generalize (subscriptsAndRest n sizes).2 = rest at *
      generalize rowMajor sizes (subscripts n sizes) = r at *
      calc rest / size * (size * sizes.prod) + (rest % size * sizes.prod + r)
        _ = (size * (rest / size) + rest % size) * sizes.prod + r := by ring
        _ = rest * sizes.prod + r := by rw [Nat.div_add_mod]
        _ = n := hnumber

/-- The number of the subscripts of a number is its remainder by the product of the sizes. -/
theorem rowMajor_subscripts (h : 0 ∉ sizes) (n : Nat) :
    rowMajor sizes (subscripts n sizes) = n % sizes.prod := by
  obtain ⟨hrange, hnumber⟩ := subscriptsAndRest_spec h n
  conv_rhs => rw [← hnumber]
  rw [Nat.mul_add_mod_self_right, Nat.mod_eq_of_lt (rowMajor_lt hrange)]

theorem subscripts_rowMajor (h : List.Forall₂ (· < ·) is sizes) :
    subscripts (rowMajor sizes is) sizes = is := by
  induction h with
  | nil => rfl
  | cons hi his ih =>
    rw [rowMajor_cons his.length_eq, subscripts_cons hi (rowMajor_lt his), ih]

theorem zero_notMem_of_lt_prod (h : n < sizes.prod) : 0 ∉ sizes := by
  intro hz
  rw [List.prod_eq_zero_iff.mpr hz] at h
  exact Nat.not_lt_zero _ h

theorem invOn_rowMajor (sizes : List Nat) :
    Set.InvOn (rowMajor sizes) (subscripts · sizes) {n | n < sizes.prod}
      {is | List.Forall₂ (· < ·) is sizes} := by
  constructor
  · intro n hn
    have hmod := rowMajor_subscripts (zero_notMem_of_lt_prod hn) n
    rwa [Nat.mod_eq_of_lt hn] at hmod
  · intro is his
    exact subscripts_rowMajor his

theorem bijOn_subscripts (sizes : List Nat) :
    Set.BijOn (subscripts · sizes) {n | n < sizes.prod} {is | List.Forall₂ (· < ·) is sizes} := by
  apply (invOn_rowMajor sizes).bijOn
  · intro n hn
    exact (subscriptsAndRest_spec (zero_notMem_of_lt_prod hn) n).1
  · intro is his
    exact rowMajor_lt his

theorem exists_word_iff (sizes : List Nat) :
    (∀ is, List.Forall₂ (· < ·) is sizes → ∃ w : UInt64, subscripts w.toNat sizes = is) ↔
      sizes.prod ≤ 2 ^ 64 := by
  constructor
  · intro h
    by_contra hlarge
    -- the first number that does not fit has subscripts of its own
    have hlimit : 2 ^ 64 < sizes.prod := Nat.lt_of_not_le hlarge
    obtain ⟨w, hw⟩ := h _ ((bijOn_subscripts sizes).mapsTo hlimit)
    have heq := eq_of_subscripts_eq (Nat.lt_trans w.toNat_lt hlimit) hlimit hw
    exact Nat.ne_of_lt w.toNat_lt heq
  · intro h is his
    refine ⟨.ofNat (rowMajor sizes is), ?_⟩
    rw [UInt64.toNat_ofNat_of_lt' (Nat.lt_of_lt_of_le (rowMajor_lt his) h)]
    exact subscripts_rowMajor his

/-- There is a subscript for each size. An axis without values has zero and makes no difference to
the others. If no axis is without values, the subscripts of every number are in range, and their
number is its remainder by the product of the sizes. The subscripts of the numbers below the product
are all that are in range, each once and in lexicographic order; 64 bits are enough for these
numbers exactly if the product is at most `2 ^ 64`. -/
theorem subscripts_spec (sizes : List Nat) :
    (∀ n, (subscripts n sizes).length = sizes.length ∧
        (∀ j : Nat, sizes[j]? = some 0 → (subscripts n sizes)[j]? = some 0) ∧
        withoutEmpty sizes (subscripts n sizes) = subscripts n (sizes.filter (· ≠ 0))) ∧
      (0 ∉ sizes → ∀ n, List.Forall₂ (· < ·) (subscripts n sizes) sizes ∧
        rowMajor sizes (subscripts n sizes) = n % sizes.prod) ∧
      Set.InvOn (rowMajor sizes) (subscripts · sizes) {n | n < sizes.prod}
        {is | List.Forall₂ (· < ·) is sizes} ∧
      Set.BijOn (subscripts · sizes) {n | n < sizes.prod} {is | List.Forall₂ (· < ·) is sizes} ∧
      (∀ m n, m < n → n < sizes.prod → subscripts m sizes < subscripts n sizes) ∧
      ((∀ is, List.Forall₂ (· < ·) is sizes → ∃ w : UInt64, subscripts w.toNat sizes = is) ↔
        sizes.prod ≤ 2 ^ 64) := by
  refine ⟨fun n => ⟨length_subscripts n sizes, fun j => getElem?_subscripts_of_zero n, ?_⟩,
    fun h n => ⟨(subscriptsAndRest_spec h n).1, rowMajor_subscripts h n⟩,
    invOn_rowMajor sizes, bijOn_subscripts sizes, fun m n hmn hn => subscripts_lt hmn hn,
    exists_word_iff sizes⟩
  rw [subscripts, subscripts, subscriptsAndRest_filter, subscripts]

/-- Two axes of `2 ^ 32` values have as many subscripts as there are numbers of 64 bits. Beyond
these the subscripts begin again, and an axis without values between them has no part in it. -/
theorem subscripts_spec_of_limit :
    let size := 2 ^ 32
    0 ∉ [size, size] ∧ [size, size].prod = 2 ^ 64 ∧
      rowMajor [size, size] (subscripts (2 ^ 64 + 5) [size, size]) = 5 ∧
      (∃ w : UInt64, subscripts w.toNat [size, size] = [size - 1, size - 1]) ∧
      subscripts (size - 1) [size, size] < subscripts size [size, size] ∧
      (subscripts (2 ^ 64 - 1) [size, 0, size])[1]? = some 0 ∧
      withoutEmpty [size, 0, size] (subscripts (2 ^ 64 - 1) [size, 0, size]) =
        subscripts (2 ^ 64 - 1) [size, size] := by
  intro size
  have hpos : 0 ∉ [size, size] := by decide
  have hprod : [size, size].prod = 2 ^ 64 := by decide
  obtain ⟨-, hmod, -, -, hlt, hwords⟩ := subscripts_spec [size, size]
  obtain ⟨hempty, -⟩ := subscripts_spec [size, 0, size]
  obtain ⟨-, hzero, hrest⟩ := hempty (2 ^ 64 - 1)
  refine ⟨hpos, hprod, ?_, ?_, ?_, hzero 1 rfl, hrest⟩
  · rw [(hmod hpos _).2, hprod]
    decide
  · have hrange : List.Forall₂ (· < ·) [size - 1, size - 1] [size, size] :=
      .cons (by decide) (.cons (by decide) .nil)
    exact hwords.mpr (Nat.le_of_eq hprod) _ hrange
  · exact hlt _ _ (by decide) (by rw [hprod]; decide)

end ParamSweep
