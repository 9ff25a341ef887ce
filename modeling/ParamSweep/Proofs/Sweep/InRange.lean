import Mathlib.Algebra.BigOperators.Ring.List
import Mathlib.Algebra.GroupWithZero.Nat
import ParamSweep.Proofs.Sweep.Edits

/-! # Combinations in range

The number of combinations is the product of the sizes as far as it is counted. However large
the product is, the subscripts of a combination that is counted are in range: there is one for
each axis and for each bundle, and every list that it is an index of is longer. So the lookups
of an expansion that would rather fail than leave a value out do not fail.
-/

namespace ParamSweep

theorem mapM_eq_filterMap {α β : Type} {f : α → Option β} {as : List α}
    (h : ∀ a ∈ as, (f a).isSome) : as.mapM f = some (as.filterMap f) := by
  induction as with
  | nil => rfl
  | cons a as ih =>
    obtain ⟨ha, hs⟩ := List.forall_mem_cons.mp h
    obtain ⟨b, hb⟩ := Option.isSome_iff_exists.mp ha
    simp [List.mapM_cons, ih hs, hb]

theorem Axis.isSome_binding?_iff {axis : Axis} {i : Nat} :
    (axis.binding? i).isSome ↔ i < axis.values.length := by
  simp [Axis.binding?]

namespace Sweep

variable {s t : Sweep} {is : List Nat}

/-- What stands behind the first `n` indexes, if there are as many. -/
def behind? (n : Nat) (is : List Nat) : Option (List Nat) :=
  if n ≤ is.length then some (is.drop n) else none

/-- The names and values at an index on each axis, if no index and no cut is out of range. -/
def bindings? (s : Sweep) (is : List Nat) : Option (List (String × Value)) := do
  let own ← (s.axes.zip is).mapM fun (axis, i) => axis.binding? i
  let js ← behind? s.axes.length is
  let shared ← (s.bundles.zip js).mapM fun (b, j) => b.axes.mapM (·.binding? j)
  return own ++ shared.flatten

/-- A subscript for each axis and for each bundle, below the length of every list of values that it
is an index of. -/
structure InRange (s : Sweep) (is : List Nat) : Prop where
  length : is.length = s.axes.length + s.bundles.length
  own : ∀ axis i, (axis, i) ∈ s.axes.zip is → i < axis.values.length
  shared : ∀ b i, (b, i) ∈ s.bundles.zip (is.drop s.axes.length) →
    ∀ axis ∈ b.axes, i < axis.values.length

theorem WellFormed.inRange (h : s.WellFormed) (his : List.Forall₂ (· < ·) is s.sizes) :
    s.InRange is := by
  have hbinds := h.binds his
  refine ⟨?_, ?_, ?_⟩
  · rw [his.length_eq, sizes, List.length_append, List.length_map, List.length_map]
  · intro axis i hp
    obtain ⟨j, hj⟩ := List.mem_iff_getElem?.mp hp
    obtain ⟨haxis, hi⟩ := List.getElem?_zip_eq_some.mp hj
    obtain ⟨i', v, hi', hv, -⟩ := hbinds.own j axis haxis
    obtain rfl := Option.some.inj (hi.symm.trans hi')
    exact (List.getElem?_eq_some_iff.mp hv).1
  · intro b i hp axis ha
    obtain ⟨j, hj⟩ := List.mem_iff_getElem?.mp hp
    obtain ⟨hb, hi⟩ := List.getElem?_zip_eq_some.mp hj
    obtain ⟨i', hi', hs⟩ := hbinds.shared j b hb
    rw [List.getElem?_drop] at hi
    obtain rfl := Option.some.inj (hi.symm.trans hi')
    obtain ⟨v, hv, -⟩ := hs axis ha
    exact (List.getElem?_eq_some_iff.mp hv).1

/-- Subscripts in range have values at all of them. -/
theorem InRange.bindings?_eq (h : s.InRange is) : s.bindings? is = some (s.bindings is) := by
  have hown : (s.axes.zip is).mapM (fun (axis, i) => axis.binding? i) =
      some ((List.zipWith Axis.binding? s.axes is).filterMap id) := by
    rw [mapM_eq_filterMap, ← List.map_uncurry_zip_eq_zipWith, List.filterMap_map]
    · rfl
    · rintro ⟨axis, i⟩ hp
      exact Axis.isSome_binding?_iff.mpr (h.own axis i hp)
  have hrow : ∀ p ∈ s.bundles.zip (is.drop s.axes.length),
      p.1.axes.mapM (·.binding? p.2) = some (p.1.bindings p.2) := by
    rintro ⟨b, i⟩ hp
    exact mapM_eq_filterMap fun axis ha => Axis.isSome_binding?_iff.mpr (h.shared b i hp axis ha)
  have hshared : (s.bundles.zip (is.drop s.axes.length)).mapM
        (fun (b, j) => b.axes.mapM (·.binding? j)) =
      some (List.zipWith Bundle.bindings s.bundles (is.drop s.axes.length)) := by
    rw [mapM_eq_filterMap fun p hp => by simp [hrow p hp], List.filterMap_congr hrow,
      ← List.map_uncurry_zip_eq_zipWith, ← List.filterMap_eq_map]
    rfl
  have hcut : behind? s.axes.length is = some (is.drop s.axes.length) :=
    if_pos (by rw [h.length]; exact Nat.le_add_right _ _)
  rw [bindings?, hown, hcut, Option.bind_eq_bind, Option.bind_some, Option.bind_eq_bind,
    Option.bind_some, hshared]
  rfl

/-- The number of combinations is the product of the sizes, or the greatest number of 64 bits if
that is more; so it is zero exactly if a size is, one without axes and bundles, and the same for the
sizes in any order, where the size of a bundle is that of all its axes. The subscripts of each
combination are in range, whether all are counted or not, and looking up its values never fails. -/
theorem combinationCount_spec (hs : s.Reachable) :
    s.combinationCount = min s.sizes.prod (2 ^ 64 - 1) ∧
      (∀ b ∈ s.bundles, b.axes ≠ [] ∧ ∀ axis ∈ b.axes, axis.values.length = b.size) ∧
      (s.combinationCount = 0 ↔ 0 ∈ s.sizes) ∧
      (s.axes = [] → s.bundles = [] → s.combinationCount = 1) ∧
      (∀ t : Sweep, t.sizes.Perm s.sizes → t.combinationCount = s.combinationCount) ∧
      ∀ c < s.combinationCount,
        s.InRange (subscripts c s.sizes) ∧
          (s.bindings? (subscripts c s.sizes)).map .ofList = some (s.assignment s.sizes c) := by
  have hcount (t : Sweep) : t.combinationCount = min t.sizes.prod (2 ^ 64 - 1) :=
    countOf_eq_min t.sizes
  have hw := hs.wellFormed
  refine ⟨hcount s, fun b hb => ⟨hw.bundle_ne_nil b hb, hw.bundle_size b hb⟩, ?_,
    fun ha hb => ?_, fun t ht => ?_, fun c hc => ?_⟩
  · have hzero : s.sizes.prod = 0 ↔ 0 ∈ s.sizes := List.prod_eq_zero_iff
    rw [hcount, ← hzero]
    omega
  · rw [hcount, sizes, ha, hb]
    rfl
  · rw [hcount, hcount, ht.prod_eq]
  · have hrange := hw.inRange (forall₂_subscripts hc)
    refine ⟨hrange, ?_⟩
    rw [hrange.bindings?_eq]
    rfl

/-- Seven axes of 256 values and a bundle of 512 rows have twice as many combinations as 64 bits
can count. The last one that is counted is in range; with an empty axis behind there is none. -/
theorem combinationCount_spec_of_limit :
    let axis (name : String) : Axis := ⟨name, List.replicate 256 (.bool true)⟩
    let row (name : String) : Axis := ⟨name, List.replicate 512 (.int 1)⟩
    let s : Sweep :=
      { empty with axes := ["a", "b", "c", "d", "e", "f", "g"].map axis,
                   bundles := [⟨[row "x", row "y"]⟩] }
    let t : Sweep := { s with axes := s.axes ++ [⟨"z", []⟩] }
    s.Reachable ∧ t.Reachable ∧ s.sizes.prod = 2 ^ 65 ∧ s.combinationCount = 2 ^ 64 - 1 ∧
      (s.bindings? (subscripts (2 ^ 64 - 2) s.sizes)).isSome ∧ t.combinationCount = 0 := by
  intro axis row s t
  have hb : Bundle.ofAxes [row "x", row "y"] = .ok ⟨[row "x", row "y"]⟩ :=
    Bundle.ofAxes_of_sizes (by decide) fun other ho => by rw [List.mem_singleton.mp ho]; rfl
  have hs : s.Reachable :=
    have haxes : Sweep.empty.setAxes s.axes = (.ok (), _) := rfl
    .of_addBundle (.of_setAxes .empty haxes) hb rfl
  have ht : t.Reachable :=
    have haxes : s.setAxes [⟨"z", []⟩] = (.ok (), _) := rfl
    hs.of_setAxes haxes
  have hsizes : s.sizes = [256, 256, 256, 256, 256, 256, 256, 512] := by
    simp [s, sizes, axis, row, Axis.size, Bundle.size, -List.reduceReplicate]
  have hprod : s.sizes.prod = 2 ^ 65 := by
    rw [hsizes]
    decide
  obtain ⟨hcount, -, -, -, -, hrange⟩ := combinationCount_spec hs
  rw [hprod] at hcount
  obtain ⟨-, -, hzero, -⟩ := combinationCount_spec ht
  obtain ⟨-, hbindings⟩ := hrange (2 ^ 64 - 2) (by rw [hcount]; decide)
  refine ⟨hs, ht, hprod, hcount, ?_, hzero.mpr ?_⟩
  · rw [← Option.isSome_map, hbindings]
    rfl
  · simp [t, sizes, Axis.size, -List.reduceReplicate]

end Sweep

end ParamSweep
