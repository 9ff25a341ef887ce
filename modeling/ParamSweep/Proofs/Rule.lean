import Mathlib.Data.List.Basic
import Mathlib.Data.List.Induction
import ParamSweep.Rule

/-! # Which rule decides

Rules are asked one after another, and each that asks for some runs overrides those before
it. So the last one of these decides, and the default where there is none.
-/

namespace ParamSweep

variable (default : UInt64) (a : Assignment)

theorem Rule.count_concat (rules : List Rule) (rule : Rule) :
    count default (rules ++ [rule]) a =
      ((rule a).filter (0 < ·)).getD (count default rules a) := by
  rw [count, List.foldl_concat, ← count]
  cases rule a with
  | none => rfl
  | some m => by_cases hm : m = 0 <;> simp [Option.filter, UInt64.pos_iff_ne_zero, hm]

/-- The number of runs is the last positive one that a rule asks for. -/
theorem Rule.count_eq (rules : List Rule) :
    count default rules a =
      (rules.reverse.findSome? fun rule => (rule a).filter (0 < ·)).getD default := by
  induction rules using List.reverseRecOn with
  | nil => rfl
  | append_singleton rules rule ih =>
    rw [count_concat, ih, List.reverse_append, List.reverse_singleton, List.singleton_append,
      List.findSome?_cons]
    cases (rule a).filter (0 < ·) <;> rfl

namespace Rule

variable {a} {rules before after : List Rule} {rule : Rule} {n : UInt64}

def Asks (rule : Rule) (a : Assignment) : Prop := ∃ n, rule a = some n ∧ 0 < n

/-- The number of runs that the last rule asks for which asks for any, or else the default. -/
inductive Decided (default : UInt64) (a : Assignment) : List Rule → UInt64 → Prop
  | last {before after : List Rule} {rule : Rule} {n : UInt64} (hn : rule a = some n)
    (hpos : 0 < n) (hafter : ∀ r ∈ after, ¬ r.Asks a) :
    Decided default a (before ++ rule :: after) n
  | none {rules : List Rule} (h : ∀ r ∈ rules, ¬ r.Asks a) : Decided default a rules default

theorem filter_eq_some (hn : rule a = some n) (hpos : 0 < n) :
    (rule a).filter (0 < ·) = some n := by
  rw [hn, Option.filter_some, if_pos (decide_eq_true hpos)]

theorem filter_eq_none (h : ¬ rule.Asks a) : (rule a).filter (0 < ·) = none := by
  rw [Option.filter_eq_none_iff]
  intro n hn hpos
  exact h ⟨n, hn, of_decide_eq_true hpos⟩

theorem count_append :
    count default (before ++ after) a = count (count default before a) after a :=
  List.foldl_append

theorem count_cons :
    count default (rule :: after) a = count (((rule a).filter (0 < ·)).getD default) after a := by
  rw [← List.singleton_append, count_append, ← List.nil_append [rule], count_concat]
  rfl

theorem count_of_not_asks (h : ∀ r ∈ rules, ¬ r.Asks a) : count default rules a = default := by
  induction rules with
  | nil => rfl
  | cons rule rules ih =>
    rw [List.forall_mem_cons] at h
    rw [count_cons, filter_eq_none h.1, Option.getD_none, ih h.2]

theorem count_of_asks (h : rule.Asks a) (other : UInt64) :
    count default (before ++ rule :: after) a = count other (rule :: after) a := by
  obtain ⟨n, hn, hpos⟩ := h
  rw [count_append, count_cons, count_cons, filter_eq_some hn hpos, Option.getD_some,
    Option.getD_some]

theorem count_insert (h : ¬ rule.Asks a) :
    count default (before ++ rule :: after) a = count default (before ++ after) a := by
  rw [count_append, count_cons, filter_eq_none h, Option.getD_none, count_append]

theorem Decided.concat (h : Decided default a rules n) (hrule : ¬ rule.Asks a) :
    Decided default a (rules ++ [rule]) n := by
  have hconcat {rs : List Rule} (hrs : ∀ r ∈ rs, ¬ r.Asks a) : ∀ r ∈ rs ++ [rule], ¬ r.Asks a :=
    List.forall_mem_append.mpr ⟨hrs, List.forall_mem_singleton.mpr hrule⟩
  cases h with
  | last hn hpos hafter =>
    rw [List.append_assoc, List.cons_append]
    exact .last hn hpos (hconcat hafter)
  | none h => exact .none (hconcat h)

theorem decided_count : Decided default a rules (count default rules a) := by
  induction rules using List.reverseRecOn with
  | nil => exact .none (List.forall_mem_nil _)
  | append_singleton rules rule ih =>
    rw [count_concat]
    by_cases hrule : rule.Asks a
    · obtain ⟨n, hn, hpos⟩ := hrule
      rw [filter_eq_some hn hpos, Option.getD_some]
      exact .last hn hpos (List.forall_mem_nil _)
    · rw [filter_eq_none hrule, Option.getD_none]
      exact ih.concat default hrule

theorem count_eq_iff : count default rules a = n ↔ Decided default a rules n := by
  constructor
  · rintro rfl
    exact decided_count default
  · rintro (⟨hn, hpos, hafter⟩ | h)
    · rw [count_append, count_cons, filter_eq_some hn hpos, Option.getD_some,
        count_of_not_asks _ hafter]
    · exact count_of_not_asks default h

end Rule

namespace ConditionalCount

def applies (r : ConditionalCount) : Bool :=
  decide (0 < r.count) && r.condition?.all (·.holds a)

end ConditionalCount

end ParamSweep
