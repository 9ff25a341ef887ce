import Mathlib.Data.List.Induction
import ParamSweep.Proofs.Sweep.Loops

/-! # Sweeps that are edited

A sweep is edited by calls that may fail. The sweeps after any number of edits are the reachable
ones: in each of them every parameter has one place, so that the assignment of a run has as many
values as there are parameters.
-/

namespace ParamSweep.Sweep

variable {s : Sweep}

inductive Edit
  | new
  | ofAxes (axes : List Axis) (bundles : List (List String))
  | setAxes (axes : List Axis)
  | setValue (name : String) (v : Value)
  /-- Puts some axes into a bundle and adds that. -/
  | addBundle (axes : List Axis)
  | addRule (r : Rule)
  | setDefaultRepeats (n : UInt64)

/-- How a call on a sweep ends, and the sweep that it leaves. -/
def Edit.call (s : Sweep) : Edit → Except SweepError Unit × Sweep
  | .new => (.ok (), .empty)
  | .ofAxes axes bundles =>
    match Sweep.ofAxes axes bundles with
    | .ok t => (.ok (), t)
    | .error e => (.error e, s)
  | .setAxes axes => s.setAxes axes
  | .setValue name v => s.setValue name v
  | .addBundle axes =>
    match Bundle.ofAxes axes with
    | .ok b => s.addBundle b
    | .error e => (.error e, s)
  | .addRule r => (.ok (), s.addRule r)
  | .setDefaultRepeats n => (.ok (), s.setDefaultRepeats n)

def edit (s : Sweep) (e : Edit) : Sweep := (e.call s).2

def edited (es : List Edit) : Sweep := es.foldl edit .empty

theorem edit_ofAxes {axes : List Axis} {bundles : List (List String)} {t : Sweep}
    (h : Sweep.ofAxes axes bundles = .ok t) (s : Sweep) : s.edit (.ofAxes axes bundles) = t := by
  rw [edit, Edit.call, h]

theorem edit_addBundle {axes : List Axis} {b : Bundle} (h : Bundle.ofAxes axes = .ok b)
    (s : Sweep) : s.edit (.addBundle axes) = (s.addBundle b).2 := by
  rw [edit, Edit.call, h]

theorem Reachable.edit (h : s.Reachable) (e : Edit) : (s.edit e).Reachable := by
  cases e with
  | new => exact .empty
  | ofAxes axes bundles =>
    cases hs : Sweep.ofAxes axes bundles with
    | ok t =>
      rw [edit_ofAxes hs]
      exact .ofAxes hs
    | error e =>
      rw [Sweep.edit, Edit.call, hs]
      exact h
  | setAxes axes => exact .setAxes axes h
  | setValue name v => exact .setValue name v h
  | addBundle axes =>
    cases hb : Bundle.ofAxes axes with
    | ok b =>
      rw [edit_addBundle hb]
      exact .addBundle h hb
    | error e =>
      rw [Sweep.edit, Edit.call, hb]
      exact h
  | addRule r => exact .addRule r h
  | setDefaultRepeats n => exact .setDefaultRepeats n h

/-- The reachable sweeps are those that come from edits. -/
theorem reachable_iff : s.Reachable ↔ ∃ es, s = edited es := by
  constructor
  · -- each way to reach a sweep is one more call
    have hnext {t : Sweep} {e : Edit} (he : ∃ es, t = edited es) : ∃ es, t.edit e = edited es := by
      obtain ⟨es, rfl⟩ := he
      exact ⟨es ++ [e], by rw [edited, edited, List.foldl_concat]⟩
    intro h
    induction h with
    | empty => exact ⟨[], rfl⟩
    | ofAxes hs =>
      rw [← edit_ofAxes hs .empty]
      exact hnext ⟨[], rfl⟩
    | setAxes axes _ ih => exact hnext (e := .setAxes axes) ih
    | setValue name v _ ih => exact hnext (e := .setValue name v) ih
    | @addBundle t axes b _ hb ih =>
      rw [← edit_addBundle hb t]
      exact hnext ih
    | addRule r _ ih => exact hnext (e := .addRule r) ih
    | setDefaultRepeats n _ ih => exact hnext (e := .setDefaultRepeats n) ih
  · rintro ⟨es, rfl⟩
    induction es using List.reverseRecOn with
    | nil => exact .empty
    | append_singleton es e ih =>
      rw [edited, List.foldl_concat]
      exact ih.edit e

theorem Binds.mem_names_iff {is : List Nat} {a : Assignment} (h : s.Binds is a) {name : String} :
    name ∈ a.names ↔ name ∈ s.names := by
  rw [NameMap.mem_names_iff]
  constructor
  · rintro ⟨v, hv⟩
    by_contra hn
    rw [h.only name hn] at hv
    cases hv
  · intro hn
    rcases List.mem_append.mp hn with hn | hn
    · obtain ⟨axis, hm, rfl⟩ := List.mem_map.mp hn
      obtain ⟨j, hj⟩ := List.mem_iff_getElem?.mp hm
      obtain ⟨i, v, -, -, hv⟩ := h.own j axis hj
      exact ⟨v, hv⟩
    · obtain ⟨b, hm, hin⟩ := List.mem_flatMap.mp hn
      obtain ⟨axis, haxis, rfl⟩ := List.mem_map.mp hin
      obtain ⟨j, hj⟩ := List.mem_iff_getElem?.mp hm
      obtain ⟨i, -, hs⟩ := h.shared j b hj
      obtain ⟨v, -, hv⟩ := hs axis haxis
      exact ⟨v, hv⟩

theorem Binds.size_eq {is : List Nat} {a : Assignment} (h : s.Binds is a) (hn : s.names.Nodup) :
    a.size = s.names.length := by
  have hp : a.names.Perm s.names :=
    (List.perm_ext_iff_of_nodup a.nodup_names hn).mpr fun _ => h.mem_names_iff
  rw [← hp.length_eq, NameMap.names, List.length_map, NameMap.size]

theorem mem_runs {r : Run} (h : r ∈ s.runs) :
    r.combination < s.combinationCount ∧ r.assignment = s.assignment s.sizes r.combination := by
  rw [runs_eq_flatMap] at h
  obtain ⟨c, hc, hr⟩ := List.mem_flatMap.mp h
  obtain ⟨i, -, rfl⟩ := List.mem_map.mp hr
  exact ⟨List.mem_range.mp hc, rfl⟩

theorem forall₂_subscripts {c : Nat} (h : c < s.combinationCount) :
    List.Forall₂ (· < ·) (subscripts c s.sizes) s.sizes := by
  rw [← mem_tuples, tuples_eq_map]
  exact List.mem_map_of_mem (List.mem_range.mpr (lt_prod_of_lt_combinationCount h))

theorem WellFormed.binds_run (h : s.WellFormed) {r : Run} (hr : r ∈ s.runs) :
    s.Binds (subscripts r.combination s.sizes) r.assignment := by
  obtain ⟨hc, ha⟩ := mem_runs hr
  rw [ha]
  exact h.binds (forall₂_subscripts hc)

/-- After any calls, failed ones among them, no name occurs twice among all axes, a bundle has
members and each of them is as long as the bundle. So each run has the value of every axis at
its subscript, and as many values as there are names. -/
theorem edited_places (es : List Edit) :
    let s := edited es
    s.names.Nodup ∧
      (∀ b ∈ s.bundles, b.axes ≠ [] ∧ ∀ axis ∈ b.axes, axis.values.length = b.size) ∧
      ∀ n r, s.call n = some r →
        r.assignment.size = s.names.length ∧
          s.Binds (subscripts r.combination s.sizes) r.assignment := by
  intro s
  have hs : s.WellFormed := (reachable_iff.mpr ⟨es, rfl⟩).wellFormed
  refine ⟨hs.nodup, fun b hb => ⟨hs.bundle_ne_nil b hb, hs.bundle_size b hb⟩, fun n r hr => ?_⟩
  rw [call_eq_getElem?] at hr
  have hbinds := hs.binds_run (List.mem_of_getElem? hr)
  exact ⟨hbinds.size_eq hs.nodup, hbinds⟩

/-- Eight calls, of which five ask for what cannot be: a bundle without members, one with members of
different sizes, an axis for a parameter that is bundled, a bundle of it, and a start with a name
that has no axis. -/
theorem edited_places_of_failures :
    let a : Axis := ⟨"a", [.int 1, .int 2]⟩
    let es : List Edit := [.setAxes [⟨"x", [.int 1, .int 2]⟩, a], .addBundle [],
      .addBundle [a, ⟨"b", []⟩], .addBundle [⟨"b", [.bool true, .bool false]⟩, a],
      .setAxes [⟨"y", [.int 3]⟩, a], .addBundle [a], .ofAxes [a] [["a", "c"]],
      .setValue "x" (.string "u")]
    let s := edited es
    s.axes = [⟨"x", [.string "u"]⟩] ∧ s.names = ["x", "b", "a"] ∧ s.names.Nodup ∧
      (∀ b ∈ s.bundles, b.axes ≠ [] ∧ ∀ axis ∈ b.axes, axis.values.length = b.size) ∧
      ∃ r, s.call 1 = some r ∧ r.assignment.size = s.names.length ∧
        s.Binds (subscripts r.combination s.sizes) r.assignment := by
  intro a es s
  obtain ⟨hnodup, hbundles, hruns⟩ := edited_places es
  have hcount : s.combinationCount = 2 := by decide
  have hcall : s.call 1 = some ⟨1, 0, 1, s.assignment s.sizes 1⟩ := by
    rw [call_eq_getElem?, runs_eq_flatMap, hcount]
    decide
  exact ⟨by decide, by decide, hnodup, hbundles, _, hcall, hruns 1 _ hcall⟩

end ParamSweep.Sweep
