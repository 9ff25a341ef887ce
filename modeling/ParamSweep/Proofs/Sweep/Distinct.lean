import ParamSweep.Proofs.Digest.Key
import ParamSweep.Proofs.Sweep.Edits
import ParamSweep.Proofs.Sweep.Rearranged

/-! # Different combinations

A combination can be read off its assignment if no axis has a value twice and no bundle has
a row twice: the value of a parameter says where its axis stands, and so do the values of a
bundle together. Then no two combinations have equal assignments.
-/

namespace ParamSweep

theorem Value.beq_comm (v w : Value) : (v == w) = (w == v) := by
  cases v <;> cases w
  case bool.bool a b => exact BEq.comm (a := a)
  case int.int m n => exact BEq.comm (a := m)
  case float.float x y => exact Binary64.beq_comm x y
  case string.string s t => exact BEq.comm (a := s)
  all_goals rfl

namespace Bundle

variable {b : Bundle}

/-- Any two rows differ in the value of a parameter. -/
def Distinct (b : Bundle) : Prop :=
  ∀ j < b.size, ∀ i < j, ∃ axis ∈ b.axes,
    ∃ v ∈ axis.values[i]?, ∃ w ∈ axis.values[j]?, (v == w) = false

instance (b : Bundle) : Decidable b.Distinct :=
  inferInstanceAs (Decidable (∀ j < b.size, ∀ i < j, ∃ axis ∈ b.axes,
    ∃ v ∈ axis.values[i]?, ∃ w ∈ axis.values[j]?, (v == w) = false))

theorem distinct_singleton {axis : Axis}
    (h : axis.values.Pairwise fun v w => (v == w) = false) : Distinct ⟨[axis]⟩ := by
  intro j hj i hij
  have hj : j < axis.values.length := hj
  refine ⟨axis, List.mem_singleton_self _, axis.values[i], ?_, axis.values[j], ?_, ?_⟩
  · exact List.getElem?_eq_getElem _
  · exact List.getElem?_eq_getElem _
  · exact List.pairwise_iff_getElem.mp h i j _ _ hij

theorem Distinct.eq_of_beq (h : b.Distinct) {i j : Nat} (hi : i < b.size) (hj : j < b.size)
    (heq : ∀ axis ∈ b.axes, ∀ v ∈ axis.values[i]?, ∀ w ∈ axis.values[j]?, (v == w) = true) :
    i = j := by
  rcases Nat.lt_trichotomy i j with hlt | hij | hlt
  · obtain ⟨axis, ha, v, hv, w, hw, hne⟩ := h j hj i hlt
    simp [heq axis ha v hv w hw] at hne
  · exact hij
  · obtain ⟨axis, ha, v, hv, w, hw, hne⟩ := h i hi j hlt
    rw [Value.beq_comm] at hne
    simp [heq axis ha w hw v hv] at hne

end Bundle

theorem Assignment.beq_of_get? {a b : Assignment} (h : a.beq b = true) {name : String}
    {v w : Value} (hv : a.get? name = some v) (hw : b.get? name = some w) :
    (v == w) = true := by
  have hrel := Assignment.beq_iff_get?.mp h name
  rw [hv, hw] at hrel
  cases hrel with
  | some hvw => exact hvw

namespace Sweep

variable {s : Sweep} {is js : List Nat} {a b : Assignment}

theorem Binds.part (h : s.Binds is a) {j : Nat} {p : Bundle} (hj : s.parts[j]? = some p) :
    ∃ i, is[j]? = some i ∧
      ∀ axis ∈ p.axes, ∃ v, axis.values[i]? = some v ∧ a.get? axis.name = some v := by
  rw [parts, List.getElem?_append, List.length_map] at hj
  split at hj
  · rw [List.getElem?_map, Option.map_eq_some_iff] at hj
    obtain ⟨axis, ha, rfl⟩ := hj
    obtain ⟨i, v, hi, hv, hget⟩ := h.own j axis ha
    refine ⟨i, hi, fun other ho => ?_⟩
    obtain rfl := List.mem_singleton.mp ho
    exact ⟨v, hv, hget⟩
  · next hlt =>
    obtain ⟨i, hi, hs⟩ := h.shared _ p hj
    rw [Nat.add_sub_cancel' (Nat.le_of_not_lt hlt)] at hi
    exact ⟨i, hi, hs⟩

theorem WellFormed.lt_size (hs : s.WellFormed) {p : Bundle} (hp : p ∈ s.parts) {i : Nat}
    (h : ∀ axis ∈ p.axes, ∃ v, axis.values[i]? = some v ∧ a.get? axis.name = some v) :
    i < p.size := by
  have heven := hs.isEven hp
  obtain ⟨axis, haxis⟩ := List.exists_mem_of_ne_nil _ heven.ne_nil
  obtain ⟨v, hv, -⟩ := h axis haxis
  rw [← heven.size axis haxis]
  exact (List.getElem?_eq_some_iff.mp hv).1

theorem WellFormed.eq_of_beq (hs : s.WellFormed) (hd : ∀ p ∈ s.parts, p.Distinct)
    (his : is.length = s.sizes.length) (hjs : js.length = s.sizes.length)
    (ha : s.Binds is a) (hb : s.Binds js b) (heq : a.beq b = true) : is = js := by
  have hlength : s.sizes.length = s.parts.length := by
    rw [← parts_sizes, List.length_map]
  apply List.ext_getElem?
  intro n
  cases hn : s.parts[n]? with
  | none =>
    rw [List.getElem?_eq_none_iff] at hn
    rw [List.getElem?_eq_none (by omega), List.getElem?_eq_none (by omega)]
  | some p =>
    have hp := List.mem_of_getElem? hn
    obtain ⟨i, hi, hvi⟩ := ha.part hn
    obtain ⟨j, hj, hvj⟩ := hb.part hn
    have hij : i = j := by
      apply (hd p hp).eq_of_beq (hs.lt_size hp hvi) (hs.lt_size hp hvj)
      intro axis haxis v hv w hw
      obtain ⟨v', hv', hgetv⟩ := hvi axis haxis
      obtain ⟨w', hw', hgetw⟩ := hvj axis haxis
      obtain rfl := Option.some.inj (hv.symm.trans hv')
      obtain rfl := Option.some.inj (hw.symm.trans hw')
      exact Assignment.beq_of_get? heq hgetv hgetw
    rw [hi, hj, hij]

/-- Combinations with different numbers have different assignments. -/
theorem WellFormed.assignment_beq (hs : s.WellFormed) (hdistinct : ∀ p ∈ s.parts, p.Distinct)
    {c d : Nat} (hc : c < s.combinationCount) (hd : d < s.combinationCount) (hcd : c ≠ d) :
    (s.assignment s.sizes c).beq (s.assignment s.sizes d) = false := by
  rw [← Bool.not_eq_true]
  intro heq
  have hcs := forall₂_subscripts hc
  have hds := forall₂_subscripts hd
  have hsubscripts : subscripts c s.sizes = subscripts d s.sizes :=
    hs.eq_of_beq hdistinct hcs.length_eq hds.length_eq (hs.binds hcs) (hs.binds hds) heq
  exact hcd (eq_of_subscripts_eq (lt_prod_of_lt_combinationCount hc)
    (lt_prod_of_lt_combinationCount hd) hsubscripts)

theorem call_of_repeatCount
    (h : ∀ c < s.combinationCount, s.repeatCount (s.assignment s.sizes c) = 1) (n : Nat) :
    s.call n =
      if n < s.combinationCount then some ⟨n, 0, 1, s.assignment s.sizes n⟩ else none := by
  have hruns : s.runs =
      (List.range s.combinationCount).map fun c => ⟨c, 0, 1, s.assignment s.sizes c⟩ := by
    rw [runs_eq_flatMap, List.map_eq_flatMap]
    refine List.flatMap_congr fun c hc => ?_
    rw [runsOf, h c (List.mem_range.mp hc)]
    rfl
  rw [call_eq_getElem?, hruns, List.getElem?_map]
  split
  · next hn => rw [List.getElem?_range hn, Option.map_some]
  · next hn => rw [List.getElem?_eq_none (by simpa using hn), Option.map_none]

/-- Where no axis has two equal values and no bundle two equal rows, combinations with different
numbers have different assignments, also where some values are not numbers or not all combinations
are counted. So if each is run once, the calls give as many runs as there are combinations, no two
of them with equal assignments. -/
theorem assignments_distinct (hs : s.Reachable)
    (haxes : ∀ axis ∈ s.axes, axis.values.Pairwise fun v w => (v == w) = false)
    (hbundles : ∀ b ∈ s.bundles, b.Distinct) :
    (∀ c d, c < s.combinationCount → d < s.combinationCount → c ≠ d →
        (s.assignment s.sizes c).beq (s.assignment s.sizes d) = false) ∧
      ((∀ c < s.combinationCount, s.repeatCount (s.assignment s.sizes c) = 1) →
        (∀ n, (∃ r, s.call n = some r) ↔ n < s.combinationCount) ∧
          ∀ m n q r, s.call m = some q → s.call n = some r → m ≠ n →
            q.assignment.beq r.assignment = false) := by
  have hparts : ∀ p ∈ s.parts, p.Distinct := by
    intro p hp
    rcases List.mem_append.mp hp with hp | hp
    · obtain ⟨axis, ha, rfl⟩ := List.mem_map.mp hp
      exact Bundle.distinct_singleton (haxes axis ha)
    · exact hbundles p hp
  refine ⟨fun c d hc hd hcd => hs.wellFormed.assignment_beq hparts hc hd hcd, fun honce => ?_⟩
  have hcall := call_of_repeatCount honce
  constructor
  · intro n
    rw [hcall]
    split <;> simp_all
  · intro m n q r hq hr hmn
    simp only [hcall, Option.ite_none_right_eq_some, Option.some.injEq] at hq hr
    obtain ⟨hm, rfl⟩ := hq
    obtain ⟨hn, rfl⟩ := hr
    exact hs.wellFormed.assignment_beq hparts hm hn hmn

/-- The values of `x` differ in their kinds only, and two rows of the bundle in one parameter. -/
theorem assignments_distinct_of_kinds :
    let x : Axis := ⟨"x", [.int 1, .float (.ofInt 1), .bool true, .string "1"]⟩
    let b : Bundle :=
      ⟨[⟨"a", [.int 1, .int 1, .int 2]⟩, ⟨"b", [.string "u", .string "v", .string "u"]⟩]⟩
    let s : Sweep := { empty with axes := [x], bundles := [b] }
    s.Reachable ∧ (x.values.Pairwise fun v w => (v == w) = false) ∧ b.Distinct ∧
      (∃ r, s.call 11 = some r) ∧ s.call 12 = none ∧
      ∀ m n q r, s.call m = some q → s.call n = some r → m ≠ n →
        q.assignment.beq r.assignment = false := by
  intro x b s
  have hs : s.Reachable :=
    have haxes : Sweep.empty.setAxes [x] = (.ok (), _) := rfl
    have hbundle : Bundle.ofAxes b.axes = .ok _ := rfl
    .of_addBundle (.of_setAxes .empty haxes) hbundle rfl
  have hx : x.values.Pairwise fun v w => (v == w) = false := by decide
  have hb : b.Distinct := by decide
  obtain ⟨-, honce⟩ := assignments_distinct hs (by simpa [s] using hx) (by simpa [s] using hb)
  obtain ⟨hcall, hdistinct⟩ := honce fun c _ => rfl
  have hcount : s.combinationCount = 12 := by decide
  refine ⟨hs, hx, hb, (hcall 11).mpr (by omega), ?_, hdistinct⟩
  rw [Option.eq_none_iff_forall_ne_some]
  intro r hr
  have := (hcall 12).mp ⟨r, hr⟩
  omega

end Sweep

end ParamSweep
