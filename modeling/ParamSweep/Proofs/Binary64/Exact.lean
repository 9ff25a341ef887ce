import Mathlib.Algebra.Order.Monoid.WithTop
import Mathlib.Order.Compare
import Mathlib.Order.WithBot
import Mathlib.Tactic.Linarith
import ParamSweep.Proofs.Binary64.Nearest

/-! # Values of doubles

A double that is a number has an exact value, which is rational or infinite. Doubles are compared
by integers that stand for their words, and these have the order of the values. Rounding does not
change this order, but may leave no difference.
-/

namespace ParamSweep.Binary64

variable {x y : Binary64}

theorem isFinite_or_isInfinite (h : x.isNaN = false) :
    x.isFinite = true ∨ x.isInfinite = true := by
  cases hinf : x.isInfinite with
  | false => exact .inl (isFinite_iff.mpr ⟨h, hinf⟩)
  | true => exact .inr rfl

def exact (x : Binary64) : WithBot (WithTop ℚ) :=
  if x.isInfinite then if x.isNegative then ⊥ else ⊤ else (x.toRat : WithTop ℚ)

theorem exact_of_isFinite (h : x.isFinite = true) : x.exact = (x.toRat : WithTop ℚ) := by
  rw [exact, (isFinite_iff.mp h).2, if_neg Bool.false_ne_true]

theorem units_lt_of_orderKey_lt (h : x.orderKey < y.orderKey) : x.units < y.units := by
  have hup : x.magnitude < y.magnitude → unitsOf x.magnitude < unitsOf y.magnitude :=
    fun h => unitsOf_strictMono h
  have hdown : y.magnitude < x.magnitude → unitsOf y.magnitude < unitsOf x.magnitude :=
    fun h => unitsOf_strictMono h
  have hpos (z : Binary64) : 0 < z.magnitude → 0 < unitsOf z.magnitude :=
    fun h => unitsOf_strictMono h
  have hx := hpos x
  have hy := hpos y
  rw [orderKey, orderKey] at h
  rw [units, units]
  cases hnx : x.isNegative <;> cases hny : y.isNegative <;>
    simp only [hnx, hny, Bool.false_eq_true, if_false, if_true] at h ⊢ <;> omega

theorem toRat_lt_of_orderKey_lt (h : x.orderKey < y.orderKey) : x.toRat < y.toRat := by
  rw [toRat, toRat, div_lt_div_iff_of_pos_right one_pos, Int.cast_lt]
  exact units_lt_of_orderKey_lt h

theorem exact_cases (h : x.isNaN = false) :
    x.orderKey = -(infinite : Int) ∧ x.exact = ⊥ ∨
      x.orderKey.natAbs < infinite ∧ x.exact = (x.toRat : WithTop ℚ) ∨
      x.orderKey = infinite ∧ x.exact = ⊤ := by
  have hkey : x.orderKey = if x.isNegative then -(x.magnitude : Int) else x.magnitude := rfl
  rcases isFinite_or_isInfinite h with hfinite | hinf
  · have hm : x.magnitude < infinite := of_decide_eq_true hfinite
    refine .inr (.inl ⟨?_, exact_of_isFinite hfinite⟩)
    rw [hkey]
    split <;> omega
  · have hm : x.magnitude = infinite := beq_iff_eq.mp hinf
    rw [hkey, hm, exact, if_pos hinf]
    cases x.isNegative
    · exact .inr (.inr ⟨rfl, rfl⟩)
    · exact .inl ⟨rfl, rfl⟩

theorem exact_lt_of_orderKey_lt (hx : x.isNaN = false) (hy : y.isNaN = false)
    (h : x.orderKey < y.orderKey) : x.exact < y.exact := by
  rcases exact_cases hx with ⟨hkx, hex⟩ | ⟨hkx, hex⟩ | ⟨hkx, hex⟩ <;>
    rcases exact_cases hy with ⟨hky, hey⟩ | ⟨hky, hey⟩ | ⟨hky, hey⟩ <;>
    rw [hex, hey]
  -- in the other five cases the order of the keys is not that of `h`
  all_goals try omega
  · exact WithBot.bot_lt_coe _
  · exact WithBot.bot_lt_coe _
  · exact WithBot.coe_lt_coe.mpr (WithTop.coe_lt_coe.mpr (toRat_lt_of_orderKey_lt h))
  · exact WithBot.coe_lt_coe.mpr (WithTop.coe_lt_top _)

theorem exact_eq_of_orderKey_eq (h : x.orderKey = y.orderKey) : x.exact = y.exact := by
  rcases orderKey_eq_iff.mp h with rfl | ⟨hx, hy⟩
  · rfl
  · have hzero {z : Binary64} (hz : z.isZero = true) : z.exact = ((0 : ℚ) : WithTop ℚ) := by
      have hm : z.magnitude = 0 := beq_iff_eq.mp hz
      have hfinite : z.isFinite = true := decide_eq_true (hm ▸ by decide)
      rw [exact_of_isFinite hfinite, toRat, units, hm, show unitsOf 0 = 0 from rfl]
      simp
    rw [hzero hx, hzero hy]

theorem compare?_eq (hx : x.isNaN = false) (hy : y.isNaN = false) :
    x.compare? y = some (compare x.exact y.exact) := by
  rw [compare?, hx, hy, Bool.or_false, if_neg Bool.false_ne_true, Option.some.injEq]
  rcases lt_trichotomy x.orderKey y.orderKey with h | h | h
  · rw [compare_lt_iff_lt.mpr h, compare_lt_iff_lt.mpr (exact_lt_of_orderKey_lt hx hy h)]
  · rw [compare_eq_iff_eq.mpr h, compare_eq_iff_eq.mpr (exact_eq_of_orderKey_eq h)]
  · rw [compare_gt_iff_gt.mpr h, compare_gt_iff_gt.mpr (exact_lt_of_orderKey_lt hy hx h)]

/-- The double that a value is rounded to, which is the nearest one. Infinities stay what they
are. -/
inductive Rounds : WithBot (WithTop ℚ) → Binary64 → Prop
  | nearest {q : ℚ} {x : Binary64} (h : IsNearest q x) : Rounds (q : WithTop ℚ) x
  | infinite {x : Binary64} (h : x.isInfinite = true) : Rounds x.exact x

theorem isNearest_toRat (h : x.isFinite = true) : IsNearest x.toRat x := by
  refine ⟨h, fun y _ => ?_, fun y _ hy => .inl ?_⟩
  · rw [sub_self, abs_zero]
    exact abs_nonneg _
  · rw [sub_self, abs_zero, eq_comm, abs_eq_zero, sub_eq_zero] at hy
    exact hy

theorem IsNearest.toRat_le {p q : ℚ} (hx : IsNearest p x) (hy : IsNearest q y) (h : p < q) :
    x.toRat ≤ y.toRat := by
  by_contra! hlt
  have hp : x.toRat + y.toRat ≤ 2 * p := by
    rcases abs_le.mp (hx.le y hy.finite) with ⟨h1, h2⟩
    rcases abs_cases (y.toRat - p) with ⟨h3, _⟩ | ⟨h3, _⟩ <;> linarith
  have hq : 2 * q ≤ x.toRat + y.toRat := by
    rcases abs_le.mp (hy.le x hx.finite) with ⟨h1, h2⟩
    rcases abs_cases (x.toRat - q) with ⟨h3, _⟩ | ⟨h3, _⟩ <;> linarith
  linarith

theorem exact_infinite (h : x.isInfinite = true) : x.exact = ⊥ ∨ x.exact = ⊤ := by
  rw [exact, if_pos h]
  exact ite_eq_or_eq _ _ _

theorem rounds_exact (h : x.isNaN = false) : Rounds x.exact x := by
  rcases isFinite_or_isInfinite h with hfinite | hinf
  · exact exact_of_isFinite hfinite ▸ .nearest (isNearest_toRat hfinite)
  · exact .infinite hinf

variable {p q : WithBot (WithTop ℚ)}

/-- Rounding keeps the order of values, if it keeps them apart. -/
theorem Rounds.exact_le (hx : Rounds p x) (hy : Rounds q y) (h : p < q) : x.exact ≤ y.exact := by
  cases hx with
  | infinite hx =>
    cases hy with
    | infinite hy => exact h.le
    | nearest hy =>
      rcases exact_infinite hx with hx | hx
      · rw [hx]
        exact bot_le
      · rw [hx] at h
        exact absurd h not_top_lt
  | nearest hx =>
    cases hy with
    | infinite hy =>
      rcases exact_infinite hy with hy | hy
      · rw [hy] at h
        exact absurd h not_lt_bot
      · rw [hy]
        exact le_top
    | nearest hy =>
      rw [exact_of_isFinite hx.finite, exact_of_isFinite hy.finite]
      have hle := hx.toRat_le hy (WithTop.coe_lt_coe.mp (WithBot.coe_lt_coe.mp h))
      exact WithBot.coe_le_coe.mpr (WithTop.coe_le_coe.mpr hle)

theorem Rounds.exact_eq (hy : y.isNaN = false) (hx : Rounds y.exact x) : x.exact = y.exact := by
  generalize he : y.exact = p at hx
  cases hx with
  | infinite hx => rfl
  | nearest hx =>
    rcases isFinite_or_isInfinite hy with hfinite | hinf
    · rw [exact_of_isFinite hfinite, WithBot.coe_inj, WithTop.coe_inj] at he
      have hle := hx.le y hfinite
      rw [he, sub_self, abs_zero, abs_nonpos_iff, sub_eq_zero] at hle
      rw [exact_of_isFinite hx.finite, hle]
    · rcases exact_infinite hinf with hbot | htop
      · exact nomatch hbot.symm.trans he
      · exact nomatch WithBot.coe_inj.mp (htop.symm.trans he)

/-- Values that are different exactly if they are so after rounding compare as they do after it. -/
theorem compare_exact (hx : Rounds p x) (hy : Rounds q y) (h : p = q ↔ x.exact = y.exact) :
    compare x.exact y.exact = compare p q := by
  rcases lt_trichotomy p q with hlt | heq | hgt
  · have hle := lt_of_le_of_ne (hx.exact_le hy hlt) fun he => hlt.ne (h.mpr he)
    rw [compare_lt_iff_lt.mpr hle, compare_lt_iff_lt.mpr hlt]
  · rw [compare_eq_iff_eq.mpr (h.mp heq), compare_eq_iff_eq.mpr heq]
  · have hle := lt_of_le_of_ne (hy.exact_le hx hgt) fun he => hgt.ne (h.mpr he.symm).symm
    rw [compare_gt_iff_gt.mpr hle, compare_gt_iff_gt.mpr hgt]

end ParamSweep.Binary64
