import Mathlib.Data.Multiset.Range
import Mathlib.Data.Multiset.Sections
import Mathlib.Logic.Relation
import ParamSweep.Proofs.Sweep.Loops

/-! # Rearranged sweeps

The order of the axes decides in which order the combinations come, but not which there are:
a combination takes one value from each axis and one row from each bundle. An axis of its
own is as good as a bundle of one. So sweeps that differ only in how their axes are arranged
run the same assignments equally often.
-/

namespace ParamSweep

variable {s t : Sweep}

namespace Bundle

def Reordered (b c : Bundle) : Prop := b.axes.Perm c.axes

structure IsEven (b : Bundle) : Prop where
  ne_nil : b.axes ≠ []
  size : ∀ axis ∈ b.axes, axis.size = b.size

def rows (b : Bundle) : Multiset (Multiset (String × Value)) :=
  (Multiset.range b.size).map fun i => b.bindings i

variable {b c : Bundle}

theorem Reordered.symm (h : b.Reordered c) : c.Reordered b := List.Perm.symm h

theorem Reordered.names (h : b.Reordered c) : b.names.Perm c.names := List.Perm.map _ h

theorem Reordered.isEven_and_size (h : b.Reordered c) (hb : b.IsEven) :
    c.IsEven ∧ c.size = b.size := by
  have hsize {axis : Axis} (ha : axis ∈ c.axes) : axis.size = b.size :=
    hb.size axis (h.mem_iff.mpr ha)
  have hne : c.axes ≠ [] := fun hc => hb.ne_nil (List.Perm.eq_nil (hc ▸ h))
  obtain ⟨first, rest, hc⟩ := List.exists_cons_of_ne_nil hne
  have hcsize : c.size = b.size := by
    rw [← hsize (hc ▸ List.mem_cons_self), Bundle.size, hc]
    rfl
  exact ⟨⟨hne, fun axis ha => (hsize ha).trans hcsize.symm⟩, hcsize⟩

/-- The rows of a bundle do not depend on the order of its axes. -/
theorem Reordered.rows (h : b.Reordered c) (hb : b.IsEven) : b.rows = c.rows := by
  have hbindings (i : Nat) : (b.bindings i : Multiset (String × Value)) = c.bindings i :=
    Multiset.coe_eq_coe.mpr (h.filterMap _)
  rw [Bundle.rows, Bundle.rows, (h.isEven_and_size hb).2]
  simp only [hbindings]

end Bundle

namespace Sweep

/-- One change in how the axes of a sweep are arranged. -/
inductive Rearranges : Sweep → Sweep → Prop
  | axes {s : Sweep} {axes : List Axis} : s.axes.Perm axes → Rearranges s { s with axes }
  | bundles {s : Sweep} {bundles : List Bundle} : s.bundles.Perm bundles →
      Rearranges s { s with bundles }
  | members {s : Sweep} {bundles : List Bundle} :
      List.Forall₂ Bundle.Reordered s.bundles bundles → Rearranges s { s with bundles }
  /-- A parameter gets a bundle to itself. -/
  | bundled {s : Sweep} {before after : List Axis} {axis : Axis} :
      s.axes = before ++ axis :: after →
      Rearranges s { s with axes := before ++ after, bundles := s.bundles ++ [⟨[axis]⟩] }

def Rearranged : Sweep → Sweep → Prop := Relation.EqvGen Rearranges

/-- The bundles of a sweep, where a parameter with an axis of its own is alone in one. -/
def parts (s : Sweep) : List Bundle := s.axes.map (fun axis => ⟨[axis]⟩) ++ s.bundles

/-- What makes the runs of sweeps the same up to their order. -/
structure Matches (s t : Sweep) : Prop where
  defaultRepeats : s.defaultRepeats = t.defaultRepeats
  rules : s.rules = t.rules
  parts : Multiset.Rel Bundle.Reordered s.parts t.parts

/-! ### Rearranged sweeps have the same parts -/

theorem matches_of_perm {axes : List Axis} {bundles : List Bundle}
    (h : s.parts.Perm (parts { s with axes, bundles })) : s.Matches { s with axes, bundles } where
  defaultRepeats := rfl
  rules := rfl
  parts := by
    rw [← Multiset.coe_eq_coe.mpr h]
    exact Multiset.rel_refl_of_refl_on fun b _ => List.Perm.refl b.axes

theorem rel_of_forall₂ {bs cs : List Bundle} (h : List.Forall₂ Bundle.Reordered bs cs) :
    Multiset.Rel Bundle.Reordered bs cs := by
  induction h with
  | nil => exact .zero
  | cons hbc _ ih => exact .cons hbc ih

theorem Rearranges.matches (h : s.Rearranges t) : s.Matches t := by
  cases h with
  | axes h => exact matches_of_perm ((h.map _).append_right _)
  | bundles h => exact matches_of_perm (h.append_left _)
  | @members bundles h =>
    refine ⟨rfl, rfl, rel_of_forall₂ ?_⟩
    exact List.rel_append (List.forall₂_same.mpr fun b _ => List.Perm.refl b.axes) h
  | @bundled before after axis h =>
    apply matches_of_perm
    simp only [parts, h, List.map_append, List.map_cons, List.append_assoc, List.cons_append]
    apply List.Perm.append_left
    rw [← List.append_assoc]
    exact (List.perm_append_singleton _ _).symm

theorem Rearranged.matches (h : s.Rearranged t) : s.Matches t := by
  induction h with
  | rel _ _ h => exact h.matches
  | refl s => exact matches_of_perm (.refl _)
  | symm _ _ _ ih =>
    refine ⟨ih.defaultRepeats.symm, ih.rules.symm, Multiset.rel_flip.mp ?_⟩
    exact ih.parts.mono fun _ _ _ _ h => h.symm
  | trans _ _ _ _ _ ih₁ ih₂ =>
    have : IsTrans Bundle Bundle.Reordered := ⟨fun _ _ _ => List.Perm.trans⟩
    exact ⟨ih₁.defaultRepeats.trans ih₂.defaultRepeats, ih₁.rules.trans ih₂.rules,
      ih₁.parts.trans _ ih₂.parts⟩

/-! ### What the parts decide -/

theorem parts_sizes (s : Sweep) : s.parts.map Bundle.size = s.sizes := by
  simp [parts, sizes, Bundle.size, Function.comp_def]

theorem parts_names (s : Sweep) : s.parts.flatMap Bundle.names = s.names := by
  simp [parts, names, Bundle.names, List.flatMap_map, ← List.map_eq_flatMap]

theorem isEven_singleton (axis : Axis) : Bundle.IsEven ⟨[axis]⟩ := by
  refine ⟨List.cons_ne_nil _ _, fun other ho => ?_⟩
  rw [List.mem_singleton.mp ho]
  rfl

theorem WellFormed.isEven (h : s.WellFormed) {b : Bundle} (hb : b ∈ s.parts) : b.IsEven := by
  rcases List.mem_append.mp hb with hb | hb
  · obtain ⟨axis, -, rfl⟩ := List.mem_map.mp hb
    exact isEven_singleton axis
  · exact ⟨h.bundle_ne_nil b hb, h.bundle_size b hb⟩

theorem Matches.perm_map (h : s.Matches t) {α : Type} {f : Bundle → α}
    (hf : ∀ b ∈ s.parts, ∀ c, b.Reordered c → f b = f c) :
    (s.parts.map f).Perm (t.parts.map f) := by
  have hrel : Multiset.Rel (fun b c => f b = f c) (s.parts : Multiset Bundle) t.parts :=
    h.parts.mono fun b hb c _ hbc => hf b hb c hbc
  exact Multiset.coe_eq_coe.mp (Multiset.rel_eq.mp (Multiset.rel_map.mpr hrel))

theorem Matches.names (h : s.Matches t) : s.names.Perm t.names := by
  have hnames : (s.parts.map fun b => (b.names : Multiset String)).Perm
      (t.parts.map fun b => (b.names : Multiset String)) :=
    h.perm_map fun b _ c hbc => Multiset.coe_eq_coe.mpr hbc.names
  rw [← Multiset.coe_eq_coe, ← parts_names, ← parts_names, ← Multiset.coe_bind,
    ← Multiset.coe_bind, Multiset.bind, Multiset.bind, Multiset.map_coe, Multiset.map_coe,
    Multiset.coe_eq_coe.mpr hnames]

theorem Matches.wellFormed (h : s.Matches t) (hs : s.WellFormed) : t.WellFormed := by
  have hall (c : Bundle) (hc : c ∈ t.bundles) : c.IsEven := by
    obtain ⟨b, hb, hbc⟩ := Multiset.exists_mem_of_rel_of_mem (Multiset.rel_flip.mpr h.parts)
      (List.mem_append_right _ hc)
    exact (Bundle.Reordered.isEven_and_size hbc (hs.isEven hb)).1
  exact ⟨h.names.nodup_iff.mp hs.nodup, fun b hb => (hall b hb).ne_nil,
    fun b hb => (hall b hb).size⟩

theorem Matches.prod_sizes (h : s.Matches t) (hs : s.WellFormed) : s.sizes.prod = t.sizes.prod := by
  rw [← parts_sizes, ← parts_sizes]
  refine (h.perm_map fun b hb c hbc => ?_).prod_eq
  exact (hbc.isEven_and_size (hs.isEven hb)).2.symm

/-! ### The combinations of the parts -/

theorem parts_bindings (s : Sweep) (is : List Nat) :
    s.bindings is = (List.zipWith Bundle.bindings s.parts is).flatten := by
  obtain ⟨_, _, axes, bundles⟩ := s
  induction axes generalizing is with
  | nil => simp [bindings, parts]
  | cons axis axes ih =>
    cases is with
    | nil => simp [bindings, parts]
    | cons i is =>
      have hi := ih is
      cases hb : axis.binding? i <;> simp_all [bindings, parts, Bundle.bindings]

/-- What the combinations of some bundles bind: a row of each of them. -/
def rowSums (bs : List Bundle) : Multiset (Multiset (String × Value)) :=
  (Multiset.Sections (bs.map Bundle.rows : List _)).map Multiset.sum

theorem rowSums_cons (b : Bundle) (bs : List Bundle) :
    rowSums (b :: bs) = b.rows.bind fun row => (rowSums bs).map (row + ·) := by
  rw [rowSums, List.map_cons, ← Multiset.cons_coe, Multiset.sections_cons, Multiset.map_bind]
  simp only [rowSums, Multiset.map_map, Function.comp_def, Multiset.sum_cons]

theorem coe_map_tuples (bs : List Bundle) :
    (((tuples (bs.map Bundle.size)).map fun is =>
        ((List.zipWith Bundle.bindings bs is).flatten : Multiset (String × Value)) : List _) :
      Multiset (Multiset (String × Value))) = rowSums bs := by
  induction bs with
  | nil => rfl
  | cons b bs ih =>
    have hrow (i : Nat) : (rowSums bs).map ((b.bindings i : Multiset (String × Value)) + ·) =
        ((tuples (bs.map Bundle.size)).map fun is =>
          (b.bindings i ++ (List.zipWith Bundle.bindings bs is).flatten :
            Multiset (String × Value)) : List _) := by
      rw [← ih, Multiset.map_coe, List.map_map]
      rfl
    rw [rowSums_cons, Bundle.rows, Multiset.bind_map, ← Multiset.coe_range]
    simp only [hrow, Multiset.coe_bind, tuples, List.map_cons, List.map_flatMap, List.map_map]
    rfl

theorem Matches.rowSums_eq (h : s.Matches t) (hs : s.WellFormed) :
    rowSums s.parts = rowSums t.parts := by
  have hrows : (s.parts.map Bundle.rows).Perm (t.parts.map Bundle.rows) :=
    h.perm_map fun b hb c hbc => hbc.rows (hs.isEven hb)
  rw [rowSums, rowSums, Multiset.coe_eq_coe.mpr hrows]

theorem WellFormed.coe_combinations (h : s.WellFormed) :
    (((tuples s.sizes).map fun is => NameMap.ofList (s.bindings is) : List Assignment) :
      Multiset Assignment) = (rowSums s.parts).map fun row => .ofList row.toList := by
  rw [← coe_map_tuples, parts_sizes, Multiset.map_coe, List.map_map]
  refine congrArg _ (List.map_congr_left fun is his => ?_)
  have hnodup : ((s.bindings is).map (·.1)).Nodup := by
    rw [h.map_bindings (mem_tuples.mp his)]
    exact h.nodup
  have hperm : (s.bindings is).Perm (s.bindings is : Multiset (String × Value)).toList :=
    Multiset.coe_eq_coe.mp (Multiset.coe_toList _).symm
  rw [Function.comp_apply, ← parts_bindings, NameMap.ofList_perm hperm hnodup]

theorem map_assignment_runs (hp : s.sizes.prod ≤ countLimit) :
    s.runs.map (·.assignment) =
      ((tuples s.sizes).map fun is => NameMap.ofList (s.bindings is)).flatMap fun a =>
        List.replicate (s.repeatCount a).toNat a := by
  rw [runs_eq_flatMap, tuples_eq_map, combinationCount, countOf_eq_prod hp, List.map_flatMap,
    List.map_map, List.flatMap_map]
  refine List.flatMap_congr fun c _ => ?_
  simp [runsOf, assignment, Function.comp_def, List.map_const']

/-- Rearranged sweeps run the same assignments equally often. -/
theorem Rearranged.perm_runs (h : s.Rearranged t) (hs : s.Reachable)
    (hp : s.sizes.prod ≤ countLimit) :
    (s.runs.map (·.assignment)).Perm (t.runs.map (·.assignment)) := by
  have hm := h.matches
  have ht : t.WellFormed := hm.wellFormed hs.wellFormed
  have hcount : s.repeatCount = t.repeatCount := by
    funext a
    rw [repeatCount, repeatCount, hm.defaultRepeats, hm.rules]
  have hcombinations : ((tuples s.sizes).map fun is => NameMap.ofList (s.bindings is)).Perm
      ((tuples t.sizes).map fun is => NameMap.ofList (t.bindings is)) := by
    apply Multiset.coe_eq_coe.mp
    rw [hs.wellFormed.coe_combinations, ht.coe_combinations, hm.rowSums_eq hs.wellFormed]
  rw [map_assignment_runs hp, map_assignment_runs (hm.prod_sizes hs.wellFormed ▸ hp), hcount]
  exact hcombinations.flatMap_right _

end Sweep

end ParamSweep
