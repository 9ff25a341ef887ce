import ParamSweep.Proofs.Sweep.Taking

/-! # Reachable sweeps

A sweep is built from the empty one, or from axes and the names to bundle, by calls that may
fail. Whatever way it is built, every parameter has one place in it, and a bundle is as long as
each of its axes.
-/

namespace ParamSweep

namespace Sweep

def names (s : Sweep) : List String := s.axes.map (·.name) ++ s.bundles.flatMap Bundle.names

/-- The sweeps that can be built, those that failed calls leave among them. -/
inductive Reachable : Sweep → Prop
  | empty : Reachable .empty
  | ofAxes {axes : List Axis} {bundles : List (List String)} {s : Sweep} :
      Sweep.ofAxes axes bundles = .ok s → Reachable s
  | setAxes {s : Sweep} (axes : List Axis) : Reachable s → Reachable (s.setAxes axes).2
  | setValue {s : Sweep} (name : String) (v : Value) : Reachable s →
      Reachable (s.setValue name v).2
  | addBundle {s : Sweep} {axes : List Axis} {b : Bundle} : Reachable s →
      Bundle.ofAxes axes = .ok b → Reachable (s.addBundle b).2
  | addRule {s : Sweep} (r : Rule) : Reachable s → Reachable (s.addRule r)
  | setDefaultRepeats {s : Sweep} (n : UInt64) : Reachable s → Reachable (s.setDefaultRepeats n)

/-- Every parameter has one place, and a bundle is as long as each of its axes. -/
structure WellFormed (s : Sweep) : Prop where
  nodup : s.names.Nodup
  bundle_ne_nil : ∀ b ∈ s.bundles, b.axes ≠ []
  bundle_size : ∀ b ∈ s.bundles, ∀ axis ∈ b.axes, axis.size = b.size

theorem isBundled_iff {s : Sweep} {name : String} :
    s.isBundled name = true ↔ name ∈ s.bundles.flatMap Bundle.names := by
  simp [isBundled, Bundle.contains_iff]

theorem mem_map_name_filter {axes : List Axis} {b : Bundle} {name : String}
    (h : name ∈ (axes.filter fun axis => !b.contains axis.name).map (·.name)) :
    name ∈ axes.map (·.name) ∧ name ∉ b.names := by
  obtain ⟨axis, haxis, rfl⟩ := List.mem_map.mp h
  obtain ⟨hmem, hnot⟩ := List.mem_filter.mp haxis
  refine ⟨List.mem_map_of_mem hmem, fun hin => ?_⟩
  rw [Bundle.contains_iff.mpr hin] at hnot
  simp at hnot

theorem map_name_putAxis (axis : Axis) (axes : List Axis) :
    (putAxis axis axes).map (·.name) =
      if axis.name ∈ axes.map (·.name) then axes.map (·.name)
      else axes.map (·.name) ++ [axis.name] := by
  induction axes with
  | nil => rfl
  | cons a axes ih =>
    by_cases h : a.name = axis.name
    · simp [putAxis, h]
    · rw [putAxis, if_neg h, List.map_cons, ih, List.map_cons]
      by_cases hm : axis.name ∈ axes.map (·.name)
      · rw [if_pos hm, if_pos (List.mem_cons_of_mem _ hm)]
      · have hn : axis.name ∉ a.name :: axes.map (·.name) :=
          List.not_mem_cons_of_ne_of_not_mem (Ne.symm h) hm
        rw [if_neg hm, if_neg hn, List.cons_append]

theorem nodup_map_name_putAxis (axis : Axis) {axes : List Axis} (h : (axes.map (·.name)).Nodup) :
    ((putAxis axis axes).map (·.name)).Nodup := by
  rw [map_name_putAxis]
  split
  · exact h
  · rename_i hn
    exact List.nodup_append.mpr ⟨h, List.nodup_singleton _, by simpa using hn⟩

theorem mem_map_name_putAxis {axis : Axis} {axes : List Axis} {name : String} :
    name ∈ (putAxis axis axes).map (·.name) ↔
      name ∈ axes.map (·.name) ∨ name = axis.name := by
  rw [map_name_putAxis]
  split
  · rename_i hm
    exact ⟨.inl, fun h => h.elim id fun he => he ▸ hm⟩
  · rw [List.mem_append, List.mem_singleton]

theorem nodup_map_name_putAxes (new : List Axis) {axes : List Axis}
    (h : (axes.map (·.name)).Nodup) :
    ((new.foldl (fun as axis => putAxis axis as) axes).map (·.name)).Nodup ∧
      ∀ name, name ∈ (new.foldl (fun as axis => putAxis axis as) axes).map (·.name) ↔
        name ∈ axes.map (·.name) ∨ name ∈ new.map (·.name) := by
  induction new generalizing axes with
  | nil => simp [h]
  | cons axis new ih =>
    obtain ⟨hd, hm⟩ := ih (nodup_map_name_putAxis axis h)
    refine ⟨hd, fun name => ?_⟩
    rw [List.foldl_cons, hm, mem_map_name_putAxis, List.map_cons, List.mem_cons, or_assoc]

theorem wellFormed_empty : WellFormed .empty := ⟨List.nodup_nil, by simp [empty], by simp [empty]⟩

namespace WellFormed

variable {s s' : Sweep}

theorem setAxes (h : s.WellFormed) (axes : List Axis) : (s.setAxes axes).2.WellFormed := by
  unfold Sweep.setAxes
  split
  · exact h
  · rename_i hf
    obtain ⟨ha, hb, hd⟩ := List.nodup_append.mp h.nodup
    obtain ⟨hn, hm⟩ := nodup_map_name_putAxes axes ha
    refine ⟨List.nodup_append.mpr ⟨hn, hb, ?_⟩, h.bundle_ne_nil, h.bundle_size⟩
    rintro name hname other hother rfl
    rcases (hm name).mp hname with hold | hnew
    · exact hd name hold name hother rfl
    · obtain ⟨axis, haxis, rfl⟩ := List.mem_map.mp hnew
      exact List.find?_eq_none.mp hf axis haxis (isBundled_iff.mpr hother)

theorem addBundle (h : s.WellFormed) {axes : List Axis} {b : Bundle}
    (hb : Bundle.ofAxes axes = .ok b) : (s.addBundle b).2.WellFormed := by
  obtain ⟨hne, hnb, hsize⟩ := Bundle.ofAxes_eq_ok hb
  unfold Sweep.addBundle
  split
  · exact h
  · rename_i hf
    obtain ⟨ha, hbs, hd⟩ := List.nodup_append.mp h.nodup
    have hfree : ∀ name ∈ b.names, name ∉ s.bundles.flatMap Bundle.names :=
      fun name hname hin => List.find?_eq_none.mp hf name hname (isBundled_iff.mpr hin)
    have hall : ∀ {P : Bundle → Prop}, (∀ b' ∈ s.bundles, P b') → P b →
        ∀ b' ∈ s.bundles ++ [b], P b' := by
      rintro P hold hnew b' hb'
      rcases List.mem_append.mp hb' with hb' | hb'
      · exact hold b' hb'
      · exact List.mem_singleton.mp hb' ▸ hnew
    refine ⟨?_, hall h.bundle_ne_nil hne, hall h.bundle_size hsize⟩
    rw [names, List.flatMap_append, List.flatMap_singleton]
    refine List.nodup_append.mpr ⟨(List.filter_sublist.map _).nodup ha,
      List.nodup_append.mpr ⟨hbs, hnb, ?_⟩, ?_⟩
    · rintro name hin other hname rfl
      exact hfree name hname hin
    · rintro name hname other hother rfl
      obtain ⟨hold, hnot⟩ := mem_map_name_filter hname
      rcases List.mem_append.mp hother with hin | hin
      · exact hd name hold name hin rfl
      · exact hnot hin

theorem bundle (h : s.WellFormed) {names : List String} (hs : s.bundle names = .ok s') :
    s'.WellFormed := by
  obtain ⟨axes, b, hb, hadd⟩ := addBundle_of_bundle (List.nodup_append.mp h.nodup).1 hs
  have hs' := h.addBundle hb
  rwa [hadd] at hs'

theorem bundles (bundles : List (List String)) (h : s.WellFormed)
    (hs : bundles.foldlM Sweep.bundle s = .ok s') : s'.WellFormed := by
  induction bundles generalizing s with
  | nil => exact Except.ok.inj hs ▸ h
  | cons names bundles ih =>
    rw [List.foldlM_cons] at hs
    obtain ⟨t, ht, hs⟩ := bind_eq_ok.mp hs
    exact ih (h.bundle ht) hs

theorem ofAxes {axes : List Axis} {bundles : List (List String)}
    (hs : Sweep.ofAxes axes bundles = .ok s') : s'.WellFormed := by
  obtain ⟨t, ht, hs⟩ := bind_eq_ok.mp hs
  have hempty := wellFormed_empty.setAxes axes
  rw [ofCall_eq_ok.mp ht] at hempty
  exact hempty.bundles bundles hs

end WellFormed

theorem Reachable.of_setAxes {s t : Sweep} {axes : List Axis} (h : s.Reachable)
    (hs : s.setAxes axes = (.ok (), t)) : t.Reachable := by
  have ht := h.setAxes axes
  rwa [hs] at ht

theorem Reachable.of_addBundle {s t : Sweep} {axes : List Axis} {b : Bundle} (h : s.Reachable)
    (hb : Bundle.ofAxes axes = .ok b) (hs : s.addBundle b = (.ok (), t)) : t.Reachable := by
  have ht := h.addBundle hb
  rwa [hs] at ht

theorem Reachable.wellFormed {s : Sweep} (h : s.Reachable) : s.WellFormed := by
  induction h with
  | empty => exact wellFormed_empty
  | ofAxes hs => exact .ofAxes hs
  | setAxes axes _ ih => exact ih.setAxes axes
  | setValue name v _ ih => exact ih.setAxes [⟨name, [v]⟩]
  | addBundle _ hb ih => exact ih.addBundle hb
  | addRule r _ ih => exact ⟨ih.nodup, ih.bundle_ne_nil, ih.bundle_size⟩
  | setDefaultRepeats n _ ih => exact ⟨ih.nodup, ih.bundle_ne_nil, ih.bundle_size⟩

end Sweep

end ParamSweep
