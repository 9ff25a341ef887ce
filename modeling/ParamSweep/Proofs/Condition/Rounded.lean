import ParamSweep.Proofs.Binary64.Exact
import ParamSweep.Proofs.Condition

/-! # Conditions on numbers

A condition on two numbers compares the doubles to which they are rounded. Two numbers that are
rounded to different doubles are compared as they are, but different ones that are rounded to the
same double count as equal. Only integers beyond 2 ^ 53 are changed by rounding.
-/

namespace ParamSweep

open Binary64 (Rounds)

namespace Comparison

def Relates {α : Type} [LinearOrder α] : Comparison → α → α → Prop
  | .eq, x, y => x = y
  | .ne, x, y => x ≠ y
  | .lt, x, y => x < y
  | .le, x, y => x ≤ y
  | .gt, x, y => y < x
  | .ge, x, y => y ≤ x

theorem accepts_compare {α : Type} [LinearOrder α] (c : Comparison) (x y : α) :
    c.accepts (compare x y) = true ↔ c.Relates x y := by
  cases c with
  | eq => rw [accepts, beq_iff_eq, compare_eq_iff_eq, Relates]
  | ne => rw [accepts, bne_iff_ne, ne_eq, compare_eq_iff_eq, Relates]
  | lt => rw [accepts, beq_iff_eq, compare_lt_iff_lt, Relates]
  | le => rw [accepts, bne_iff_ne, compare_le_iff_le, Relates]
  | gt => rw [accepts, beq_iff_eq, compare_gt_iff_gt, Relates]
  | ge => rw [accepts, bne_iff_ne, compare_ge_iff_ge, Relates]

end Comparison

namespace Value

variable {v w : Value} {p q : WithBot (WithTop ℚ)}

def number? : Value → Option (WithBot (WithTop ℚ))
  | .int n => some ((n.toInt : ℚ) : WithTop ℚ)
  | .float x => if x.isNaN then none else some x.exact
  | _ => none

/-- Whether a value is an integer beyond those that are all doubles. -/
def IsWide (v : Value) : Prop := ∃ n : Int64, v = .int n ∧ 2 ^ 53 < n.toInt.natAbs

theorem number?_float {x : Binary64} (h : (float x).number? = some p) :
    x.isNaN = false ∧ x.exact = p := by
  rw [number?] at h
  split at h
  · exact nomatch h
  · next hnan => exact ⟨Bool.not_eq_true _ ▸ hnan, Option.some.inj h⟩

theorem exists_rounds (h : v.number? = some p) :
    ∃ x, v.asFloat? = some x ∧ x.isNaN = false ∧ Rounds p x ∧ (x.exact = p ∨ v.IsWide) := by
  cases v with
  | bool b => exact nomatch h
  | string s => exact nomatch h
  | float x =>
    obtain ⟨hnan, rfl⟩ := number?_float h
    exact ⟨x, rfl, hnan, Binary64.rounds_exact hnan, .inl rfl⟩
  | int n =>
    obtain rfl := Option.some.inj h
    have hn : n.toInt.natAbs < 2 ^ 64 := by
      have := n.le_toInt
      have := n.toInt_lt
      omega
    have hfinite := Binary64.isFinite_ofInt hn
    refine ⟨.ofInt n.toInt, rfl, (Binary64.isFinite_iff.mp hfinite).1,
      .nearest (Binary64.isNearest_ofInt hn), ?_⟩
    rcases Nat.lt_or_ge (2 ^ 53) n.toInt.natAbs with hwide | hnarrow
    · exact .inr ⟨n, rfl, hwide⟩
    · left
      rw [Binary64.exact_of_isFinite hfinite, Binary64.toRat_ofInt hnarrow]

theorem exact_eq_of_number?_eq {x y : Binary64} (hv : v.number? = some p) (hw : w.number? = some p)
    (hx : v.asFloat? = some x) (hy : w.asFloat? = some y) : x.exact = y.exact := by
  obtain ⟨x', hx', -, hroundsx, -⟩ := exists_rounds hv
  obtain ⟨y', hy', -, hroundsy, -⟩ := exists_rounds hw
  obtain rfl := Option.some.inj (hx.symm.trans hx')
  obtain rfl := Option.some.inj (hy.symm.trans hy')
  cases v with
  | bool b => exact nomatch hv
  | string s => exact nomatch hv
  | float z =>
    obtain rfl := Option.some.inj hx
    obtain ⟨hnan, rfl⟩ := number?_float hv
    exact (hroundsy.exact_eq hnan).symm
  | int m =>
    cases w with
    | bool b => exact nomatch hw
    | string s => exact nomatch hw
    | float z =>
      obtain rfl := Option.some.inj hy
      obtain ⟨hnan, rfl⟩ := number?_float hw
      exact hroundsx.exact_eq hnan
    | int n =>
      have hmn : m.toInt = n.toInt := by
        have h := hv.trans hw.symm
        rw [number?, number?, Option.some.injEq, WithBot.coe_inj, WithTop.coe_inj,
          Int.cast_inj] at h
        exact h
      rw [asFloat?, Option.some.injEq] at hx hy
      rw [← hx, ← hy, hmn]

end Value

namespace Condition

/-- A condition on two numbers holds if its relation does between the doubles nearest to them. This
is its relation between the numbers themselves, unless they are different and have the same nearest
double. The nearest double is the number itself, but for integers beyond 2 ^ 53. -/
theorem holds_iff_rounded {a : Assignment} {c : Condition} {v : Value} {p q : WithBot (WithTop ℚ)}
    (hv : a.get? c.parameter = some v) (hp : v.number? = some p) (hq : c.value.number? = some q) :
    ∃ x y, Rounds p x ∧ Rounds q y ∧
      (c.holds a = true ↔ c.comparison.Relates x.exact y.exact) ∧
      ((x.exact = y.exact → p = q) → (c.holds a = true ↔ c.comparison.Relates p q)) ∧
      (x.exact = p ∨ v.IsWide) ∧ (y.exact = q ∨ c.value.IsWide) := by
  obtain ⟨x, hx, hxnan, hroundsx, hwidex⟩ := Value.exists_rounds hp
  obtain ⟨y, hy, hynan, hroundsy, hwidey⟩ := Value.exists_rounds hq
  have horder : v.order? c.value = some (compare x.exact y.exact) := by
    rw [Value.order?_of_asFloat? hx hy, Binary64.compare?_eq hxnan hynan]
  have hholds : c.holds a = c.comparison.accepts (compare x.exact y.exact) := by
    rw [← Comparison.holds_of_order? horder, ← holds_of_get? hv]
  refine ⟨x, y, hroundsx, hroundsy, ?_, fun h => ?_, hwidex, hwidey⟩
  · rw [hholds, Comparison.accepts_compare]
  · have heq : p = q ↔ x.exact = y.exact :=
      ⟨fun h => Value.exact_eq_of_number?_eq hp (h ▸ hq) hx hy, h⟩
    rw [hholds, Binary64.compare_exact hroundsx hroundsy heq, Comparison.accepts_compare]

/-- The integer 2 ^ 53 + 1 is compared as 2 ^ 53, which is the value of a double. -/
theorem holds_iff_rounded_of_wide :
    let a : Assignment := .ofList [("seed", .int 9007199254740993)]
    let c : Condition := ⟨"seed", .gt, .float ⟨0x4340000000000000⟩⟩
    ∃ x y, Rounds ((9007199254740993 : ℚ) : WithTop ℚ) x ∧
      Rounds (Binary64.exact ⟨0x4340000000000000⟩) y ∧
      (c.holds a = true ↔ y.exact < x.exact) := by
  intro a c
  have hv : a.get? c.parameter = some (.int 9007199254740993) := by decide
  have hq : c.value.number? = some (Binary64.exact ⟨0x4340000000000000⟩) := by
    rw [Value.number?, if_neg (by decide)]
  obtain ⟨x, y, hx, hy, hholds, -⟩ := holds_iff_rounded hv rfl hq
  exact ⟨x, y, hx, hy, hholds⟩

/-- The integers 2 ^ 53 + 1 and 2 ^ 53 count as equal. -/
theorem not_holds_iff_exact :
    let a : Assignment := .ofList [("seed", .int 9007199254740993)]
    let c : Condition := ⟨"seed", .eq, .int 9007199254740992⟩
    ∃ v p q, a.get? c.parameter = some v ∧ v.number? = some p ∧ c.value.number? = some q ∧
      ¬ (c.holds a = true ↔ c.comparison.Relates p q) := by
  intro a c
  have hholds : c.holds a = true := by decide +kernel
  refine ⟨.int 9007199254740993, _, _, by decide, rfl, rfl, fun h => ?_⟩
  have heq := h.mp hholds
  rw [Comparison.Relates, WithBot.coe_inj, WithTop.coe_inj, Int.cast_inj] at heq
  exact absurd heq (by decide)

end Condition

end ParamSweep
