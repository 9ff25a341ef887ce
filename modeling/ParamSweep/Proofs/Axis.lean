import Mathlib.Data.List.Nodup
import ParamSweep.Axis

/-! # Axes by name and bundles of them

Axes with different names are known by their names and what is found under these. A bundle
is made of some axes if their names differ and their sizes do not.
-/

namespace ParamSweep

namespace Axis

variable {axes : List Axis} {axis : Axis} {name : String}

theorem name_of_find? (h : find? axes name = some axis) : axis.name = name := by
  simpa using List.find?_some h

theorem mem_of_find? (h : find? axes name = some axis) : axis ∈ axes :=
  List.mem_of_find?_eq_some h

theorem find?_of_mem (h : (axes.map (·.name)).Nodup) (ha : axis ∈ axes) :
    find? axes axis.name = some axis := by
  induction axes with
  | nil => exact nomatch ha
  | cons a axes ih =>
    obtain ⟨hn, hs⟩ := List.nodup_cons.mp h
    rcases List.mem_cons.mp ha with rfl | ha
    · simp [find?]
    · have hne : a.name ≠ axis.name := by
        rintro he
        exact hn (List.mem_map.mpr ⟨axis, ha, he.symm⟩)
      rw [find?, List.find?_cons_of_neg (by simpa using hne)]
      exact ih hs ha

theorem find?_eq_none_iff : find? axes name = none ↔ name ∉ axes.map (·.name) := by
  rw [find?, List.find?_eq_none, List.mem_map, not_exists]
  simp

theorem exists_find? (h : name ∈ axes.map (·.name)) : ∃ axis, find? axes name = some axis :=
  Option.ne_none_iff_exists'.mp fun hnone => find?_eq_none_iff.mp hnone h

theorem find?_filter {names : List String} (h : name ∉ names) :
    find? (axes.filter fun axis => axis.name ∉ names) name = find? axes name := by
  rw [find?, List.find?_filter, find?]
  congr 1
  funext axis
  by_cases ha : axis.name = name
  · simp [ha, h]
  · simp [ha]

theorem map_name_filter (axes : List Axis) (names : List String) :
    (axes.filter fun axis => axis.name ∉ names).map (·.name) =
      (axes.map (·.name)).filter (· ∉ names) := by
  rw [List.filter_map]
  rfl

theorem filterMap_find?_map_name (h : (axes.map (·.name)).Nodup) :
    (axes.map (·.name)).filterMap (find? axes) = axes := by
  rw [List.filterMap_map]
  refine (List.filterMap_congr fun axis ha => ?_).trans List.filterMap_some
  rw [Function.comp_apply, find?_of_mem h ha]

theorem eraseP_eq_filter (h : (axes.map (·.name)).Nodup) (name : String) :
    axes.eraseP (·.name == name) = axes.filter fun axis => axis.name ∉ [name] := by
  induction axes with
  | nil => rfl
  | cons a axes ih =>
    obtain ⟨hn, hs⟩ := List.nodup_cons.mp h
    by_cases ha : a.name = name
    · have hrest : axes.filter (fun axis => axis.name ∉ [name]) = axes := by
        rw [← ih hs]
        apply List.eraseP_of_forall_not
        intro axis hm he
        have he : axis.name = name := by simpa using he
        exact hn (List.mem_map.mpr ⟨axis, hm, he.trans ha.symm⟩)
      rw [List.eraseP_cons_of_pos (by simpa using ha), List.filter_cons_of_neg (by simpa using ha),
        hrest]
    · rw [List.eraseP_cons_of_neg (by simpa using ha), List.filter_cons_of_pos (by simpa using ha),
        ih hs]

theorem map_name_filterMap_find? {names : List String}
    (h : ∀ name ∈ names, name ∈ axes.map (·.name)) :
    (names.filterMap (find? axes)).map (·.name) = names := by
  induction names with
  | nil => rfl
  | cons name names ih =>
    obtain ⟨hname, hnames⟩ := List.forall_mem_cons.mp h
    obtain ⟨axis, ha⟩ := exists_find? hname
    rw [List.filterMap_cons_some ha, List.map_cons, name_of_find? ha, ih hnames]

end Axis

namespace Bundle

variable {axes : List Axis} {b : Bundle}

theorem contains_iff {name : String} : b.contains name = true ↔ name ∈ b.names := by
  simp [contains, names]

theorem repeated?_eq_none_iff {seen names : List String} :
    repeated? seen names = none ↔ names.Nodup ∧ ∀ name ∈ names, name ∉ seen := by
  induction names generalizing seen with
  | nil => simp [repeated?]
  | cons name names ih =>
    rw [repeated?, List.nodup_cons, List.forall_mem_cons]
    split
    · next hseen => exact ⟨nofun, fun h => absurd hseen h.2.1⟩
    · next hseen =>
      rw [ih]
      constructor
      · rintro ⟨hd, hs⟩
        exact ⟨⟨fun hm => hs name hm List.mem_cons_self, hd⟩, hseen,
          fun other ho hin => hs other ho (List.mem_cons_of_mem _ hin)⟩
      · rintro ⟨⟨hn, hd⟩, -, hs⟩
        refine ⟨hd, fun other ho hin => ?_⟩
        rcases List.mem_cons.mp hin with rfl | hin
        · exact hn ho
        · exact hs other ho hin

theorem ofAxes_cons {first : Axis} {rest : List Axis} (h : ((first :: rest).map (·.name)).Nodup) :
    ofAxes (first :: rest) =
      match (first :: rest).find? (·.size != first.size) with
      | some axis => .error (.sizeMismatch axis.name first.name axis.size first.size)
      | none => .ok ⟨first :: rest⟩ := by
  have hnone := repeated?_eq_none_iff.mpr ⟨h, fun name _ => List.not_mem_nil⟩
  cases hfind : (first :: rest).find? (·.size != first.size) with
  | none => simp only [ofAxes, hnone, hfind]
  | some axis => simp only [ofAxes, hnone, hfind]

theorem ofAxes_of_sizes {first : Axis} {rest : List Axis}
    (h : ((first :: rest).map (·.name)).Nodup) (hsize : ∀ axis ∈ rest, axis.size = first.size) :
    ofAxes (first :: rest) = .ok ⟨first :: rest⟩ := by
  have hnone : (first :: rest).find? (·.size != first.size) = none := by
    simpa using hsize
  rw [ofAxes_cons h, hnone]

theorem ofAxes_of_size_ne {first axis : Axis} {seen later : List Axis}
    (h : ((first :: (seen ++ axis :: later)).map (·.name)).Nodup)
    (hseen : ∀ other ∈ seen, other.size = first.size) (hne : axis.size ≠ first.size) :
    ofAxes (first :: (seen ++ axis :: later)) =
      .error (.sizeMismatch axis.name first.name axis.size first.size) := by
  have hsome : (first :: (seen ++ axis :: later)).find? (·.size != first.size) = some axis := by
    refine List.find?_eq_some_iff_append.mpr ⟨by simpa using hne, first :: seen, later, rfl, ?_⟩
    simpa using hseen
  rw [ofAxes_cons h, hsome]

/-- A bundle has some parameters, each once and all with as many values. -/
theorem ofAxes_eq_ok (h : ofAxes axes = .ok b) :
    b.axes ≠ [] ∧ b.names.Nodup ∧ ∀ axis ∈ b.axes, axis.size = b.size := by
  unfold ofAxes at h
  split at h
  · cases h
  · cases h
  · next first rest hr =>
    split at h
    · cases h
    · next hf =>
      obtain rfl := Except.ok.inj h
      refine ⟨List.cons_ne_nil _ _, (repeated?_eq_none_iff.mp hr).1, fun axis ha => ?_⟩
      simpa [size] using List.find?_eq_none.mp hf axis ha

theorem eq_of_ofAxes (h : ofAxes axes = .ok b) : b = ⟨axes⟩ := by
  unfold ofAxes at h
  split at h
  · cases h
  · cases h
  · split at h
    · cases h
    · exact (Except.ok.inj h).symm

end Bundle

end ParamSweep
