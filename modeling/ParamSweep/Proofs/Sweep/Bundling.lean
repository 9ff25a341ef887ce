import Mathlib.Data.List.Basic
import Mathlib.Data.List.Induction
import ParamSweep.Proofs.Except
import ParamSweep.Proofs.Sweep.Reachable

/-! # Axes that are put together and bundled

Axes that are put one after another leave one for each name, in the place of the first with
the name and with the values of the last. Bundling some names takes their axes from there, and
the others stay as they are.
-/

namespace ParamSweep

namespace Sweep

variable {s t : Sweep}

/-! ### Axes one after another -/

theorem eraseDups_of_nodup {names : List String} (h : names.Nodup) : names.eraseDups = names := by
  induction names with
  | nil => rfl
  | cons name names ih =>
    obtain ⟨hn, hs⟩ := List.nodup_cons.mp h
    have hfilter : (names.filter fun other => !other == name) = names := by
      apply List.filter_eq_self.mpr
      intro other ho
      have hne : other ≠ name := fun he => hn (he ▸ ho)
      simpa using hne
    rw [List.eraseDups_cons, hfilter, ih hs]

theorem eraseDups_concat (names : List String) (name : String) :
    (names ++ [name]).eraseDups =
      if name ∈ names then names.eraseDups else names.eraseDups ++ [name] := by
  rw [List.eraseDups_append]
  by_cases h : name ∈ names <;> simp [List.removeAll, List.eraseDups_cons, h]

/-- Names stand in the order in which they come first. -/
theorem map_name_putAxes (new : List Axis) {old : List Axis} (h : (old.map (·.name)).Nodup) :
    (new.foldl (fun as axis => putAxis axis as) old).map (·.name) =
      ((old ++ new).map (·.name)).eraseDups := by
  induction new using List.reverseRecOn with
  | nil => rw [List.append_nil, eraseDups_of_nodup h, List.foldl_nil]
  | append_singleton new axis ih =>
    rw [List.foldl_concat, map_name_putAxis, ih, ← List.append_assoc, (old ++ new).map_append,
      List.map_singleton, eraseDups_concat]
    simp only [List.mem_eraseDups]

theorem find?_putAxis (axis : Axis) (axes : List Axis) (name : String) :
    Axis.find? (putAxis axis axes) name =
      if axis.name = name then some axis else Axis.find? axes name := by
  induction axes with
  | nil => by_cases h : axis.name = name <;> simp [putAxis, Axis.find?, h]
  | cons a axes ih =>
    simp only [Axis.find?] at ih
    by_cases ha : a.name = axis.name
    · by_cases h : axis.name = name <;> simp [putAxis, Axis.find?, ha, h]
    · rw [putAxis, if_neg ha]
      by_cases h : a.name = name
      · have hne : axis.name ≠ name := fun he => ha (h.trans he.symm)
        simp [Axis.find?, h, hne]
      · simp [Axis.find?, h, ih]

theorem find?_putAxes (new old : List Axis) (name : String) :
    Axis.find? (new.foldl (fun as axis => putAxis axis as) old) name =
      (Axis.find? new.reverse name).or (Axis.find? old name) := by
  induction new using List.reverseRecOn with
  | nil => rfl
  | append_singleton new axis ih =>
    rw [List.foldl_concat, find?_putAxis, ih, List.reverse_append, List.reverse_singleton]
    by_cases h : axis.name = name <;> simp [Axis.find?, h]

/-! ### Bundling -/

/-- What bundling makes of a sweep. -/
structure Bundles (s : Sweep) (bundles : List (List String)) (t : Sweep) : Prop where
  defaultRepeats : t.defaultRepeats = s.defaultRepeats
  rules : t.rules = s.rules
  /-- The other axes stay where they are. -/
  axes : t.axes = s.axes.filter fun axis => axis.name ∉ bundles.flatten
  names : t.bundles.map Bundle.names = s.bundles.map Bundle.names ++ bundles
  members : ∀ b ∈ t.bundles, b ∈ s.bundles ∨ ∀ axis ∈ b.axes, axis ∈ s.axes

theorem bundles_nil : s.Bundles [] s where
  defaultRepeats := rfl
  rules := rfl
  axes := by simp
  names := by simp
  members _ hb := .inl hb

theorem Bundles.nodup {bundles : List (List String)} (h : s.Bundles bundles t)
    (hs : (s.axes.map (·.name)).Nodup) : (t.axes.map (·.name)).Nodup :=
  h.axes ▸ nodup_without hs _

theorem Bundles.concat {u : Sweep} {bundles : List (List String)} {names : List String}
    (h : s.Bundles bundles t) (hs : (s.axes.map (·.name)).Nodup) (hu : t.bundle names = .ok u) :
    s.Bundles (bundles ++ [names]) u := by
  obtain ⟨hcan, b, hb, rfl⟩ := (bundle_eq_ok_iff (h.nodup hs)).mp hu
  obtain rfl := Bundle.eq_of_ofAxes hb
  refine ⟨h.defaultRepeats, h.rules, ?_, ?_, ?_⟩
  · rw [without, h.axes, List.filter_filter]
    apply List.filter_congr
    intro axis _
    rw [List.flatten_append, List.flatten_singleton, ← Bool.decide_and]
    simp only [List.mem_append, not_or, and_comm]
  · simp [h.names, Bundle.names, Axis.map_name_filterMap_find? hcan.known]
  · intro b hb
    rcases List.mem_append.mp hb with hb | hb
    · exact h.members b hb
    · obtain rfl := List.mem_singleton.mp hb
      refine .inr fun axis ha => ?_
      obtain ⟨name, -, hfind⟩ := List.mem_filterMap.mp ha
      have hold := Axis.mem_of_find? hfind
      rw [h.axes] at hold
      exact List.mem_of_mem_filter hold

theorem bundles_of_foldlM {bundles : List (List String)} (hs : (s.axes.map (·.name)).Nodup)
    (h : bundles.foldlM bundle s = .ok t) : s.Bundles bundles t :=
  foldlM_induction (P := s.Bundles) bundles_nil (fun _ _ _ _ _ h ht => h.concat hs ht) h

theorem setAxes_empty (axes : List Axis) :
    empty.setAxes axes =
      (.ok (), { empty with axes := axes.foldl (fun as axis => putAxis axis as) [] }) := by
  have hnone : (axes.find? fun axis => empty.isBundled axis.name) = none := by
    simp [isBundled, empty]
  rw [setAxes, hnone]
  rfl

end Sweep

end ParamSweep
