import ParamSweep.Proofs.Axis
import ParamSweep.Proofs.Except
import ParamSweep.Sweep.Basic

/-! # Taking axes into a bundle

The axes of some names are taken out of a sweep one by one, so that later names are looked up
among fewer axes. Where all names go through, that comes to the same as finding all axes first
and then adding their bundle.
-/

namespace ParamSweep.Sweep

variable {s t : Sweep} {taken axes : List Axis} {names : List String}

def without (s : Sweep) (names : List String) : Sweep :=
  { s with axes := s.axes.filter fun axis => axis.name ∉ names }

/-- Names of parameters that have axes of their own, each once. -/
structure CanTake (s : Sweep) (names : List String) : Prop where
  nodup : names.Nodup
  free : ∀ name ∈ names, s.isBundled name = false
  known : ∀ name ∈ names, name ∈ s.axes.map (·.name)

theorem without_without (s : Sweep) (name : String) (names : List String) :
    (s.without [name]).without names = s.without (name :: names) := by
  simp only [without, List.filter_filter]
  congr 2
  funext axis
  simp [Bool.and_comm]

theorem nodup_without (hs : (s.axes.map (·.name)).Nodup) (names : List String) :
    ((s.without names).axes.map (·.name)).Nodup :=
  (List.filter_sublist.map _).nodup hs

theorem canTake_cons {name : String} :
    s.CanTake (name :: names) ↔ s.isBundled name = false ∧ name ∈ s.axes.map (·.name) ∧
      (s.without [name]).CanTake names := by
  have hknown (other : String) :
      other ∈ (s.without [name]).axes.map (·.name) ↔
        other ∈ s.axes.map (·.name) ∧ other ≠ name := by
    rw [without, Axis.map_name_filter]
    simp
  constructor
  · rintro ⟨hnodup, hfree, hall⟩
    obtain ⟨hn, hnodup⟩ := List.nodup_cons.mp hnodup
    refine ⟨hfree name List.mem_cons_self, hall name List.mem_cons_self, hnodup,
      fun other ho => hfree other (List.mem_cons_of_mem _ ho), fun other ho => ?_⟩
    exact (hknown other).mpr ⟨hall other (List.mem_cons_of_mem _ ho), fun he => hn (he ▸ ho)⟩
  · rintro ⟨hfree, hname, hrest⟩
    have hn : name ∉ names := fun hm => ((hknown name).mp (hrest.known name hm)).2 rfl
    exact ⟨List.nodup_cons.mpr ⟨hn, hrest.nodup⟩, List.forall_mem_cons.mpr ⟨hfree, hrest.free⟩,
      List.forall_mem_cons.mpr
        ⟨hname, fun other ho => ((hknown other).mp (hrest.known other ho)).1⟩⟩

theorem takeAxes_cons (s : Sweep) (taken : List Axis) (name : String) (names : List String) :
    s.takeAxes taken (name :: names) =
      if name ∈ taken.map (·.name) ∨ s.isBundled name = true then .error (.alreadyBundled name)
      else
        match Axis.find? s.axes name with
        | some axis =>
          takeAxes { s with axes := s.axes.eraseP (·.name == name) } (taken ++ [axis]) names
        | none => .error (.unknownParameter name) := by
  have htaken : (taken.any (·.name == name) || s.isBundled name) = true ↔
      name ∈ taken.map (·.name) ∨ s.isBundled name = true := by
    rw [Bool.or_eq_true, List.any_eq_true, List.mem_map]
    simp only [beq_iff_eq]
  rw [takeAxes]
  exact if_congr htaken rfl rfl

theorem takeAxes_cons_eq_ok {name : String} :
    s.takeAxes taken (name :: names) = .ok (t, axes) ↔
      name ∉ taken.map (·.name) ∧ s.isBundled name = false ∧
        ∃ axis, Axis.find? s.axes name = some axis ∧
          takeAxes { s with axes := s.axes.eraseP (·.name == name) } (taken ++ [axis]) names =
            .ok (t, axes) := by
  rw [takeAxes_cons]
  split
  · next hor =>
    refine ⟨nofun, fun ⟨hname, hbundled, _⟩ => ?_⟩
    rcases hor with hin | hin
    · exact absurd hin hname
    · exact absurd (hin.symm.trans hbundled) nofun
  · next hor =>
    obtain ⟨hname, hbundled⟩ := not_or.mp hor
    cases hfind : Axis.find? s.axes name with
    | none => exact ⟨nofun, fun ⟨_, _, _, h, _⟩ => nomatch h⟩
    | some axis =>
      refine ⟨fun h => ⟨hname, Bool.not_eq_true _ ▸ hbundled, axis, rfl, h⟩, ?_⟩
      rintro ⟨-, -, _, h, htake⟩
      exact Option.some.inj h ▸ htake

/-- Axes are taken if the names go through, and then they are those that the names have. -/
theorem takeAxes_eq_ok_iff (hs : (s.axes.map (·.name)).Nodup) :
    s.takeAxes taken names = .ok (t, axes) ↔
      (∀ name ∈ names, name ∉ taken.map (·.name)) ∧ s.CanTake names ∧ t = s.without names ∧
        axes = taken ++ names.filterMap (Axis.find? s.axes) := by
  induction names generalizing s taken with
  | nil =>
    have hnil : s.without [] = s := by simp [without]
    have hcan : s.CanTake [] := ⟨List.nodup_nil, nofun, nofun⟩
    simp [takeAxes, hnil, hcan, eq_comm]
  | cons name names ih =>
    have hstep : { s with axes := s.axes.eraseP (·.name == name) } = s.without [name] := by
      rw [Axis.eraseP_eq_filter hs, without]
    rw [takeAxes_cons_eq_ok, hstep, canTake_cons, ← without_without s name names,
      List.forall_mem_cons]
    -- the names that follow find the same axes as before, since this one is not among them
    have hfind (h : (s.without [name]).CanTake names) : name ∉ names ∧
        names.filterMap (Axis.find? (s.without [name]).axes) =
          names.filterMap (Axis.find? s.axes) := by
      have hn (other : String) (ho : other ∈ names) : other ∉ [name] := by
        have := h.known other ho
        rw [without, Axis.map_name_filter, List.mem_filter] at this
        simpa using this.2
      exact ⟨fun hm => hn name hm List.mem_cons_self,
        List.filterMap_congr fun other ho => Axis.find?_filter (hn other ho)⟩
    constructor
    · rintro ⟨hname, hbundled, axis, haxis, h⟩
      obtain ⟨hrest, hcan, rfl, rfl⟩ := (ih (nodup_without hs [name])).mp h
      obtain ⟨hn, hmap⟩ := hfind hcan
      refine ⟨⟨hname, fun other ho hin => hrest other ho ?_⟩,
        ⟨hbundled, ?_, hcan⟩, rfl, ?_⟩
      · rw [List.map_append]
        exact List.mem_append_left _ hin
      · exact Axis.name_of_find? haxis ▸ List.mem_map_of_mem (Axis.mem_of_find? haxis)
      · rw [hmap, List.filterMap_cons_some haxis, List.append_assoc, List.singleton_append]
    · rintro ⟨⟨hname, hrest⟩, ⟨hbundled, hknown, hcan⟩, rfl, rfl⟩
      obtain ⟨axis, haxis⟩ := Axis.exists_find? hknown
      obtain ⟨hn, hmap⟩ := hfind hcan
      refine ⟨hname, hbundled, axis, haxis, (ih (nodup_without hs [name])).mpr
        ⟨fun other ho hin => ?_, hcan, rfl, ?_⟩⟩
      · rw [List.map_append, List.map_singleton, Axis.name_of_find? haxis] at hin
        rcases List.mem_append.mp hin with hin | hin
        · exact hrest other ho hin
        · obtain rfl := List.mem_singleton.mp hin
          exact hn ho
      · rw [hmap, List.filterMap_cons_some haxis, List.append_assoc, List.singleton_append]

theorem takeAxes_append (s : Sweep) (taken : List Axis) (names more : List String) :
    s.takeAxes taken (names ++ more) =
      s.takeAxes taken names >>= fun (t, axes) => t.takeAxes axes more := by
  induction names generalizing s taken with
  | nil => rfl
  | cons name names ih =>
    rw [List.cons_append, takeAxes, takeAxes]
    split
    · rfl
    · split
      · exact ih _ _
      · rfl

theorem bundle_eq_error {e : SweepError} (h : s.takeAxes [] names = .error e) :
    s.bundle names = .error e := by
  rw [bundle, h]
  rfl

/-- Bundling takes the axes of the names and puts them together. -/
theorem bundle_eq_ok_iff (hs : (s.axes.map (·.name)).Nodup) :
    s.bundle names = .ok t ↔ s.CanTake names ∧
      ∃ b, Bundle.ofAxes (names.filterMap (Axis.find? s.axes)) = .ok b ∧
        t = { s.without names with bundles := s.bundles ++ [b] } := by
  rw [bundle, bind_eq_ok]
  constructor
  · rintro ⟨⟨u, axes⟩, htake, h⟩
    obtain ⟨-, hcan, rfl, rfl⟩ := (takeAxes_eq_ok_iff hs).mp htake
    obtain ⟨b, hb, ht⟩ := bind_eq_ok.mp h
    exact ⟨hcan, b, hb, (Except.ok.inj ht).symm⟩
  · rintro ⟨hcan, b, hb, rfl⟩
    have htake : s.takeAxes [] names =
        .ok (s.without names, [] ++ names.filterMap (Axis.find? s.axes)) :=
      (takeAxes_eq_ok_iff hs).mpr ⟨by simp, hcan, rfl, rfl⟩
    exact ⟨_, htake, bind_eq_ok.mpr ⟨b, hb, rfl⟩⟩

theorem find?_isBundled_eq_none_iff :
    names.find? s.isBundled = none ↔ ∀ name ∈ names, s.isBundled name = false := by
  rw [List.find?_eq_none]
  simp

theorem ofCall_eq_ok {r : Except SweepError Unit × Sweep} : ofCall r = .ok t ↔ r = (.ok (), t) := by
  rcases r with ⟨e | _, s⟩ <;> simp [ofCall]

theorem addBundle_eq_ok_iff {b : Bundle} :
    s.addBundle b = (.ok (), t) ↔ (∀ name ∈ b.names, s.isBundled name = false) ∧
      t = { s.without b.names with bundles := s.bundles ++ [b] } := by
  have hfilter : (s.axes.filter fun axis => !b.contains axis.name) = (s.without b.names).axes := by
    apply List.filter_congr
    intro axis _
    rw [Bool.eq_iff_iff, Bool.not_eq_true', ← Bool.not_eq_true, Bundle.contains_iff,
      decide_eq_true_iff]
  rw [addBundle, ← find?_isBundled_eq_none_iff, hfilter]
  split
  · next hfind => simp [hfind]
  · next hfind => simp [hfind, without, eq_comm]

theorem addBundle_of_bundle (hs : (s.axes.map (·.name)).Nodup) (h : s.bundle names = .ok t) :
    ∃ axes b, Bundle.ofAxes axes = .ok b ∧ s.addBundle b = (.ok (), t) := by
  obtain ⟨hcan, b, hb, rfl⟩ := (bundle_eq_ok_iff hs).mp h
  have hnames : b.names = names := by
    rw [Bundle.eq_of_ofAxes hb]
    exact Axis.map_name_filterMap_find? hcan.known
  refine ⟨_, b, hb, addBundle_eq_ok_iff.mpr ?_⟩
  rw [hnames]
  exact ⟨hcan.free, rfl⟩

end ParamSweep.Sweep
