import Mathlib.Order.Compare
import ParamSweep.Proofs.Binary64
import ParamSweep.Proofs.Text.Order
import ParamSweep.Rule

/-! # Which conditions hold

Two strings stand in one of three relations to each other, and so do two numbers. Of such values
each comparison says in which of the three it holds. Truth values are the same or not, and
have no order. About any other two values no comparison says anything, not even that they differ.
-/

namespace ParamSweep

open Json.Decoder (bytes)

namespace Value

def isNumber : Value → Bool
  | .int _ => true
  | .float x => !x.isNaN
  | _ => false

/-- The values that have an order: two strings, or two numbers of whatever kinds. -/
inductive Ordered : Value → Value → Prop
  | strings (s t : String) : Ordered (.string s) (.string t)
  | numbers {v w : Value} (hv : v.isNumber = true) (hw : w.isNumber = true) : Ordered v w

def AreBools (v w : Value) : Prop := ∃ x y, v = .bool x ∧ w = .bool y

def order? : Value → Value → Option Ordering
  | .string s, .string t => some (compare s t)
  | v, w => v.asFloat?.bind fun x => w.asFloat?.bind x.compare?

end Value

namespace Comparison

def converse : Comparison → Comparison
  | .eq => .eq
  | .ne => .ne
  | .lt => .gt
  | .le => .ge
  | .gt => .lt
  | .ge => .le

/-- Exactly one of `<`, `==` and `>` holds, and each other comparison where one of them does not. -/
structure Partitions (holds : Comparison → Bool) : Prop where
  one : [.lt, .eq, .gt].countP holds = 1
  ne : holds .ne = !holds .eq
  ge : holds .ge = !holds .lt
  le : holds .le = !holds .gt

theorem partitions_accepts (o : Ordering) : Partitions (·.accepts o) := by
  cases o <;> exact ⟨rfl, rfl, rfl, rfl⟩

theorem accepts_converse (c : Comparison) (o : Ordering) :
    c.converse.accepts o.swap = c.accepts o := by
  cases c <;> cases o <;> rfl

/-- Of values that are not both truth values a comparison holds as it accepts their order. -/
theorem holds_eq (c : Comparison) {v w : Value} (h : ¬ v.AreBools w) :
    c.holds v w = (v.order? w).any c.accepts := by
  unfold holds
  split
  · rfl
  · exact absurd ⟨_, _, rfl, rfl⟩ h
  · next hstring _ =>
    rw [Value.order?.eq_2 v w hstring]
    generalize v.asFloat? = x, w.asFloat? = y
    cases x <;> cases y <;> rfl

end Comparison

namespace Value

variable {v w : Value}

theorem isNumber_iff : v.isNumber = true ↔ ∃ x, v.asFloat? = some x ∧ x.isNaN = false := by
  cases v <;> simp [isNumber, asFloat?, Binary64.ofInt, Binary64.isNaN_nearest]

theorem isSome_order?_iff : (v.order? w).isSome = true ↔ v.Ordered w := by
  unfold order?
  split
  · next s t => exact ⟨fun _ => .strings s t, fun _ => rfl⟩
  · next hstring =>
    have hsome : (v.asFloat?.bind fun x => w.asFloat?.bind x.compare?).isSome = true ↔
        v.isNumber = true ∧ w.isNumber = true := by
      rw [isNumber_iff, isNumber_iff]
      generalize v.asFloat? = x, w.asFloat? = y
      cases x <;> cases y <;> simp [Binary64.isSome_compare?_iff]
    rw [hsome]
    constructor
    · exact fun ⟨hv, hw⟩ => .numbers hv hw
    · rintro (⟨s, t⟩ | ⟨hv, hw⟩)
      · exact (hstring s t rfl rfl).elim
      · exact ⟨hv, hw⟩

theorem Ordered.exists_order? (h : v.Ordered w) : ∃ o, v.order? w = some o :=
  Option.isSome_iff_exists.mp (isSome_order?_iff.mpr h)

theorem order?_of_asFloat? {x y : Binary64} (hv : v.asFloat? = some x) (hw : w.asFloat? = some y) :
    v.order? w = x.compare? y := by
  have hstring (s t : String) : v = .string s → w = .string t → False := by
    rintro rfl -
    exact nomatch hv
  rw [order?.eq_2 v w hstring, hv, hw, Option.bind_some, Option.bind_some]

theorem order?_swap (v w : Value) : w.order? v = (v.order? w).map Ordering.swap := by
  unfold order?
  split
  · next s t => exact congrArg some Std.OrientedOrd.eq_swap
  · next hstring =>
    split
    · next s t => exact (hstring t s rfl rfl).elim
    · generalize v.asFloat? = x, w.asFloat? = y
      cases x <;> cases y <;> first | rfl | exact Binary64.compare?_swap _ _

end Value

namespace Comparison

variable {v w : Value}

theorem holds_of_order? {o : Ordering} (h : v.order? w = some o) (c : Comparison) :
    c.holds v w = c.accepts o := by
  have hbools : ¬ v.AreBools w := by
    rintro ⟨x, y, rfl, rfl⟩
    cases h
  rw [holds_eq c hbools, h, Option.any_some]

theorem partitions_of_ordered (h : v.Ordered w) : Partitions (·.holds v w) := by
  obtain ⟨o, ho⟩ := h.exists_order?
  simp only [holds_of_order? ho]
  exact partitions_accepts o

theorem holds_converse (c : Comparison) (h : v.Ordered w) : c.converse.holds w v = c.holds v w := by
  obtain ⟨o, ho⟩ := h.exists_order?
  have hswap : w.order? v = some o.swap := by rw [Value.order?_swap, ho, Option.map_some]
  rw [holds_of_order? hswap, holds_of_order? ho, accepts_converse]

theorem holds_lt_string {s t : String} : lt.holds (.string s) (.string t) = true ↔ s < t := by
  rw [holds_of_order? rfl, accepts, beq_iff_eq, compare_lt_iff_lt]

theorem holds_eq_string {s t : String} : eq.holds (.string s) (.string t) = true ↔ s = t := by
  rw [holds_of_order? rfl, accepts, beq_iff_eq, compare_eq_iff_eq]

theorem holds_of_not_ordered (c : Comparison) (h : ¬ v.Ordered w) (hbools : ¬ v.AreBools w) :
    c.holds v w = false := by
  rw [← Value.isSome_order?_iff, Option.isSome_iff_ne_none, not_not] at h
  rw [holds_eq c hbools, h, Option.any_none]

end Comparison

namespace Condition

theorem holds_of_get? {a : Assignment} {name : String} {v : Value} (h : a.get? name = some v)
    (c : Comparison) (w : Value) : holds ⟨name, c, w⟩ a = c.holds v w := by
  rw [holds, h, Option.any_some]

/-- Of two strings or two numbers exactly one of `<`, `==` and `>` holds, each other comparison
holds where one of these does not, and the two can change places. Strings are in the order of
their bytes, which is transitive. Truth values are either the same or not, and not ordered. In any
other case, where a parameter is missing, a number is not one or the kinds differ, no comparison
holds. -/
theorem holds_partition (a : Assignment) (name : String) (w : Value) :
    let holds (c : Comparison) : Bool := Condition.holds ⟨name, c, w⟩ a
    (∀ v, a.get? name = some v → v.Ordered w →
      Comparison.Partitions holds ∧
        ∀ (b : Assignment) (other : String), b.get? other = some w →
          ∀ c : Comparison, Condition.holds ⟨other, c.converse, v⟩ b = holds c) ∧
    (∀ s t, a.get? name = some (.string s) → w = .string t →
      (holds .lt = true ↔ bytes s < bytes t) ∧ (holds .eq = true ↔ s = t) ∧
        ∀ (b : Assignment) (other u : String), b.get? other = some w → holds .lt = true →
          Condition.holds ⟨other, .lt, .string u⟩ b = true →
          Condition.holds ⟨name, .lt, .string u⟩ a = true) ∧
    (∀ x y, a.get? name = some (.bool x) → w = .bool y →
      [.eq, .ne].countP holds = 1 ∧ (holds .eq = true ↔ x = y) ∧
        ∀ c ∈ [Comparison.lt, .le, .gt, .ge], holds c = false) ∧
    ((∀ v, a.get? name = some v → ¬ v.Ordered w ∧ ¬ v.AreBools w) → ∀ c, holds c = false) := by
  intro holds
  have hholds {v : Value} (hv : a.get? name = some v) : holds = fun c => c.holds v w :=
    funext fun c => holds_of_get? hv c w
  refine ⟨?ordered, ?strings, ?bools, ?others⟩
  case ordered =>
    intro v hv hordered
    rw [hholds hv]
    refine ⟨Comparison.partitions_of_ordered hordered, fun b other hw c => ?_⟩
    rw [holds_of_get? hw, Comparison.holds_converse c hordered]
  case strings =>
    rintro s t hs rfl
    simp only [hholds hs]
    rw [Comparison.holds_lt_string, Comparison.holds_eq_string, Text.lt_iff_bytes_lt]
    refine ⟨Iff.rfl, Iff.rfl, fun b other u ht hst htu => ?_⟩
    rw [holds_of_get? ht, Comparison.holds_lt_string] at htu
    rw [holds_of_get? hs, Comparison.holds_lt_string]
    exact String.lt_trans (Text.lt_iff_bytes_lt.mpr hst) htu
  case bools =>
    rintro x y hx rfl
    rw [hholds hx]
    cases x <;> cases y <;> decide
  case others =>
    intro hnone c
    show Condition.holds ⟨name, c, w⟩ a = false
    cases hv : a.get? name with
    | none => rw [Condition.holds, hv, Option.any_none]
    | some v =>
      obtain ⟨hordered, hbools⟩ := hnone v hv
      rw [holds_of_get? hv, Comparison.holds_of_not_ordered c hordered hbools]

/-- An integer and one half, a letter whose code has two bytes, truth values, what is no number, and
a parameter that is missing. -/
theorem holds_partition_of_kinds :
    let a : Assignment := .ofList [("n", .int 3), ("s", .string "z"), ("b", .bool true),
      ("x", .float .nan)]
    let half : Value := .float ⟨0x3fe0000000000000⟩
    Comparison.Partitions (fun c => holds ⟨"n", c, half⟩ a) ∧
      holds ⟨"s", .lt, .string "é"⟩ a = true ∧
      [.eq, .ne].countP (fun c => holds ⟨"b", c, .bool false⟩ a) = 1 ∧
      (∀ c, holds ⟨"x", c, half⟩ a = false) ∧ ∀ c, holds ⟨"y", c, half⟩ a = false := by
  intro a half
  have hn : a.get? "n" = some (.int 3) := by decide
  have hs : a.get? "s" = some (.string "z") := by decide
  have hb : a.get? "b" = some (.bool true) := by decide
  have hx : a.get? "x" = some (.float .nan) := by decide
  have hy : a.get? "y" = none := by decide
  have hhalf : half.isNumber = true := by decide
  have hnan : ¬ Value.Ordered (.float .nan) half := by
    rw [← Value.isSome_order?_iff]
    decide
  refine ⟨?_, ?_, ?_, ?_, ?_⟩
  · exact ((holds_partition a "n" half).1 _ hn (.numbers rfl hhalf)).1
  · exact ((holds_partition a "s" _).2.1 _ _ hs rfl).1.mpr (by decide +kernel)
  · exact ((holds_partition a "b" _).2.2.1 _ _ hb rfl).1
  · refine (holds_partition a "x" half).2.2.2 fun v hv => ?_
    obtain rfl := Option.some.inj (hx.symm.trans hv)
    exact ⟨hnan, fun ⟨_, _, h, _⟩ => nomatch h⟩
  · exact (holds_partition a "y" half).2.2.2 fun v hv => nomatch hy.symm.trans hv

end Condition

end ParamSweep
