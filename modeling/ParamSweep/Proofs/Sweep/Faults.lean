import ParamSweep.Proofs.Sweep.Bundling

/-! # What is wrong with names to bundle

A sweep over some axes is built unless something is wrong with the names to bundle, and then
the first fault in reading order is reported. A name is wrong if it was used before or has no
axis. Only when all names of a list are in order its axes are looked at, those that come last
with the names: there must be some, and each must be as long as the first.
-/

namespace ParamSweep.Sweep

variable {axes : List Axis} {used names : List String} {s t : Sweep} {e : SweepError}

/-- The number of values of a parameter, of which the ones that come last count. -/
def lastSize? (axes : List Axis) (name : String) : Option Nat :=
  (Axis.find? axes.reverse name).map Axis.size

/-- Names that are in order after others: no name was used before and each has an axis. -/
structure Takeable (axes : List Axis) (used names : List String) : Prop where
  nodup : names.Nodup
  fresh : ∀ name ∈ names, name ∉ used
  known : ∀ name ∈ names, name ∈ axes.map (·.name)

/-- The first fault of a list of names, read after others have been used. -/
inductive Fault (axes : List Axis) (used names : List String) : SweepError → Prop
  | repeated {seen later : List String} {name : String} (hnames : names = seen ++ name :: later)
      (hseen : Takeable axes used seen) (hname : name ∈ used ++ seen) :
      Fault axes used names (.alreadyBundled name)
  | unknown {seen later : List String} {name : String} (hnames : names = seen ++ name :: later)
      (hseen : Takeable axes used seen) (hname : name ∉ used ++ seen)
      (haxis : name ∉ axes.map (·.name)) : Fault axes used names (.unknownParameter name)
  | empty (hnames : names = []) : Fault axes used names .emptyBundle
  | uneven {seen later : List String} {first name : String} {firstSize size : Nat}
      (hnames : names = first :: (seen ++ name :: later)) (hall : Takeable axes used names)
      (hfirst : lastSize? axes first = some firstSize)
      (hseen : ∀ other ∈ seen, lastSize? axes other = some firstSize)
      (hsize : lastSize? axes name = some size) (hne : size ≠ firstSize) :
      Fault axes used names (.sizeMismatch name first size firstSize)

/-- Lists of names that can be bundled. -/
structure Bundleable (axes : List Axis) (lists : List (List String)) : Prop where
  nonempty : ∀ names ∈ lists, names ≠ []
  distinct : ∀ names ∈ lists, names.Nodup
  apart : lists.Pairwise List.Disjoint
  known : ∀ names ∈ lists, ∀ name ∈ names, name ∈ axes.map (·.name)
  even : ∀ names ∈ lists, ∀ name ∈ names, ∀ other ∈ names,
    lastSize? axes name = lastSize? axes other

structure Fits (axes : List Axis) (used names : List String) : Prop extends
    Takeable axes used names where
  nonempty : names ≠ []
  even : ∀ name ∈ names, ∀ other ∈ names, lastSize? axes name = lastSize? axes other

theorem bundleable_concat {lists : List (List String)} :
    Bundleable axes (lists ++ [names]) ↔
      Bundleable axes lists ∧ Fits axes lists.flatten names := by
  have hall {P : List String → Prop} :
      (∀ l ∈ lists ++ [names], P l) ↔ (∀ l ∈ lists, P l) ∧ P names := by
    simp [or_imp, forall_and]
  have hapart : (lists ++ [names]).Pairwise List.Disjoint ↔
      lists.Pairwise List.Disjoint ∧ ∀ name ∈ names, name ∉ lists.flatten := by
    rw [List.pairwise_append]
    simp only [List.pairwise_singleton, true_and, List.mem_singleton, forall_eq, List.mem_flatten,
      not_exists, not_and, List.Disjoint]
    exact and_congr_right fun _ => ⟨fun h _ hn l hl hin => h l hl hin hn,
      fun h l hl _ hin hn => h _ hn l hl hin⟩
  constructor
  · rintro ⟨hne, hd, ha, hk, he⟩
    rw [hall] at hne hd hk he
    rw [hapart] at ha
    exact ⟨⟨hne.1, hd.1, ha.1, hk.1, he.1⟩, ⟨hd.2, ha.2, hk.2⟩, hne.2, he.2⟩
  · rintro ⟨⟨hne, hd, ha, hk, he⟩, ⟨hd', ha', hk'⟩, hne', he'⟩
    exact ⟨hall.mpr ⟨hne, hne'⟩, hall.mpr ⟨hd, hd'⟩, hapart.mpr ⟨ha, ha'⟩, hall.mpr ⟨hk, hk'⟩,
      hall.mpr ⟨he, he'⟩⟩

/-! ### The first fault -/

theorem takeable_concat {name : String} :
    Takeable axes used (names ++ [name]) ↔
      Takeable axes used names ∧ name ∉ used ++ names ∧ name ∈ axes.map (·.name) := by
  have hall {P : String → Prop} : (∀ n ∈ names ++ [name], P n) ↔ (∀ n ∈ names, P n) ∧ P name := by
    simp [or_imp, forall_and]
  have hnodup : (names ++ [name]).Nodup ↔ names.Nodup ∧ name ∉ names := by
    rw [(List.perm_append_singleton name names).nodup_iff, List.nodup_cons, and_comm]
  rw [List.mem_append, not_or]
  constructor
  · rintro ⟨hd, hf, hk⟩
    rw [hnodup] at hd
    rw [hall] at hf hk
    exact ⟨⟨hd.1, hf.1, hk.1⟩, ⟨hf.2, hd.2⟩, hk.2⟩
  · rintro ⟨⟨hd, hf, hk⟩, ⟨hf', hd'⟩, hk'⟩
    exact ⟨hnodup.mpr ⟨hd, hd'⟩, hall.mpr ⟨hf, hf'⟩, hall.mpr ⟨hk, hk'⟩⟩

theorem takeable_or_first (axes : List Axis) (used names : List String) :
    Takeable axes used names ∨ ∃ seen name later, names = seen ++ name :: later ∧
      Takeable axes used seen ∧ (name ∈ used ++ seen ∨ name ∉ axes.map (·.name)) := by
  induction names using List.reverseRecOn with
  | nil => exact .inl ⟨List.nodup_nil, nofun, nofun⟩
  | append_singleton names name ih =>
    rcases ih with h | ⟨seen, other, later, rfl, hseen, hother⟩
    · by_cases hname : name ∉ used ++ names ∧ name ∈ axes.map (·.name)
      · exact .inl (takeable_concat.mpr ⟨h, hname⟩)
      · refine .inr ⟨names, name, [], rfl, h, ?_⟩
        rwa [not_and_or, not_not] at hname
    · exact .inr ⟨seen, other, later ++ [name], by simp, hseen, hother⟩

theorem exists_lastSize? {name : String} (h : name ∈ axes.map (·.name)) :
    ∃ size, lastSize? axes name = some size := by
  have hr : name ∈ axes.reverse.map (·.name) := by
    rwa [List.map_reverse, List.mem_reverse]
  obtain ⟨axis, ha⟩ := Axis.exists_find? hr
  exact ⟨axis.size, by rw [lastSize?, ha, Option.map_some]⟩

/-- Names that do not fit have a first fault. -/
theorem fits_or_fault (axes : List Axis) (used names : List String) :
    Fits axes used names ∨ ∃ e, Fault axes used names e := by
  rcases takeable_or_first axes used names with h | ⟨seen, name, later, hnames, hseen, hname⟩
  · cases names with
    | nil => exact .inr ⟨_, .empty rfl⟩
    | cons first rest =>
      cases hfind : rest.find? (lastSize? axes · != lastSize? axes first) with
      | none =>
        have heven : ∀ name ∈ first :: rest, lastSize? axes name = lastSize? axes first := by
          simpa using hfind
        exact .inl ⟨h, List.cons_ne_nil _ _, fun name hn other ho =>
          (heven name hn).trans (heven other ho).symm⟩
      | some name =>
        obtain ⟨hne, seen, later, rfl, hseen⟩ := List.find?_eq_some_iff_append.mp hfind
        obtain ⟨firstSize, hfirst⟩ := exists_lastSize? (h.known first List.mem_cons_self)
        obtain ⟨size, hsize⟩ := exists_lastSize? (h.known name (by simp))
        rw [hfirst] at hne hseen
        refine .inr ⟨_, .uneven rfl h hfirst (by simpa using hseen) hsize ?_⟩
        simpa [hsize] using hne
  · by_cases hused : name ∈ used ++ seen
    · exact .inr ⟨_, .repeated hnames hseen hused⟩
    · exact .inr ⟨_, .unknown hnames hseen hused (hname.resolve_left hused)⟩

/-! ### The axes of some names -/

theorem map_name_found (hall : Takeable axes used names) :
    (names.filterMap (Axis.find? axes.reverse)).map (·.name) = names := by
  refine Axis.map_name_filterMap_find? fun name hn => ?_
  rw [List.map_reverse, List.mem_reverse]
  exact hall.known name hn

theorem find?_of_lastSize? {name : String} {size : Nat} (h : lastSize? axes name = some size) :
    ∃ axis, Axis.find? axes.reverse name = some axis ∧ axis.size = size :=
  Option.map_eq_some_iff.mp h

theorem size_of_mem_found {size : Nat} (h : ∀ name ∈ names, lastSize? axes name = some size) :
    ∀ axis ∈ names.filterMap (Axis.find? axes.reverse), axis.size = size := by
  intro axis ha
  obtain ⟨name, hn, hfind⟩ := List.mem_filterMap.mp ha
  have hsize := h name hn
  rw [lastSize?, hfind, Option.map_some] at hsize
  exact Option.some.inj hsize

theorem ofAxes_of_fits (h : Fits axes used names) :
    ∃ b, Bundle.ofAxes (names.filterMap (Axis.find? axes.reverse)) = .ok b := by
  have hnodup : ((names.filterMap (Axis.find? axes.reverse)).map (·.name)).Nodup := by
    rw [map_name_found h.toTakeable]
    exact h.nodup
  cases names with
  | nil => exact absurd rfl h.nonempty
  | cons first rest =>
    obtain ⟨firstSize, hfirst⟩ := exists_lastSize? (h.known first List.mem_cons_self)
    obtain ⟨axis, ha, rfl⟩ := find?_of_lastSize? hfirst
    rw [List.filterMap_cons_some ha] at hnodup ⊢
    refine ⟨_, Bundle.ofAxes_of_sizes hnodup (size_of_mem_found fun name hn => ?_)⟩
    rw [← hfirst]
    exact h.even name (List.mem_cons_of_mem _ hn) first List.mem_cons_self

theorem ofAxes_of_uneven {seen later : List String} {first name : String} {firstSize size : Nat}
    (hnames : names = first :: (seen ++ name :: later)) (hall : Takeable axes used names)
    (hfirst : lastSize? axes first = some firstSize)
    (hseen : ∀ other ∈ seen, lastSize? axes other = some firstSize)
    (hsize : lastSize? axes name = some size) (hne : size ≠ firstSize) :
    Bundle.ofAxes (names.filterMap (Axis.find? axes.reverse)) =
      .error (.sizeMismatch name first size firstSize) := by
  have hnodup : ((names.filterMap (Axis.find? axes.reverse)).map (·.name)).Nodup := by
    rw [map_name_found hall]
    exact hall.nodup
  obtain ⟨a, ha, rfl⟩ := find?_of_lastSize? hfirst
  obtain ⟨axis, haxis, rfl⟩ := find?_of_lastSize? hsize
  rw [hnames, List.filterMap_cons_some ha, List.filterMap_append,
    List.filterMap_cons_some haxis] at hnodup ⊢
  rw [Bundle.ofAxes_of_size_ne hnodup (size_of_mem_found hseen) hne, Axis.name_of_find? ha,
    Axis.name_of_find? haxis]

/-! ### Bundling some names after others -/

def unbundled (axes : List Axis) : Sweep :=
  { empty with axes := axes.foldl (fun as axis => putAxis axis as) [] }

theorem nodup_unbundled (axes : List Axis) : ((unbundled axes).axes.map (·.name)).Nodup := by
  have hnil : (([] : List Axis).map (·.name)).Nodup := List.nodup_nil
  exact (nodup_map_name_putAxes axes hnil).1

theorem find?_unbundled (axes : List Axis) (name : String) :
    Axis.find? (unbundled axes).axes name = Axis.find? axes.reverse name := by
  rw [unbundled, find?_putAxes, Axis.find?.eq_1 [], List.find?_nil, Option.or_none]

theorem mem_unbundled {name : String} :
    name ∈ (unbundled axes).axes.map (·.name) ↔ name ∈ axes.map (·.name) := by
  rw [← not_iff_not, ← Axis.find?_eq_none_iff, find?_unbundled, Axis.find?_eq_none_iff,
    List.map_reverse, List.mem_reverse]

section Bundles

variable {lists : List (List String)} (h : (unbundled axes).Bundles lists s)
include h

theorem Bundles.isBundled_iff {name : String} :
    s.isBundled name = true ↔ name ∈ lists.flatten := by
  have hnames : s.bundles.map Bundle.names = lists := h.names
  rw [Sweep.isBundled_iff, ← hnames, List.flatMap_def]

theorem Bundles.mem_axes_iff {name : String} :
    name ∈ s.axes.map (·.name) ↔ name ∈ axes.map (·.name) ∧ name ∉ lists.flatten := by
  rw [h.axes, Axis.map_name_filter, List.mem_filter, mem_unbundled, decide_eq_true_iff]

theorem Bundles.find? {name : String} (hname : name ∉ lists.flatten) :
    Axis.find? s.axes name = Axis.find? axes.reverse name := by
  rw [h.axes, Axis.find?_filter hname, find?_unbundled]

theorem Bundles.canTake_iff : s.CanTake names ↔ Takeable axes lists.flatten names := by
  have hfree {name : String} : s.isBundled name = false ↔ name ∉ lists.flatten := by
    rw [← h.isBundled_iff, Bool.not_eq_true]
  constructor
  · rintro ⟨hd, hf, hk⟩
    exact ⟨hd, fun name hn => hfree.mp (hf name hn),
      fun name hn => (h.mem_axes_iff.mp (hk name hn)).1⟩
  · rintro ⟨hd, hf, hk⟩
    exact ⟨hd, fun name hn => hfree.mpr (hf name hn),
      fun name hn => h.mem_axes_iff.mpr ⟨hk name hn, hf name hn⟩⟩

theorem Bundles.filterMap_find? (hnames : ∀ name ∈ names, name ∉ lists.flatten) :
    names.filterMap (Axis.find? s.axes) = names.filterMap (Axis.find? axes.reverse) :=
  List.filterMap_congr fun name hn => h.find? (hnames name hn)

theorem Bundles.takeAxes_of_takeable (hseen : Takeable axes lists.flatten names)
    (more : List String) :
    s.takeAxes [] (names ++ more) =
      (s.without names).takeAxes (names.filterMap (Axis.find? s.axes)) more := by
  have htake : s.takeAxes [] names =
      .ok (s.without names, [] ++ names.filterMap (Axis.find? s.axes)) :=
    (takeAxes_eq_ok_iff (h.nodup (nodup_unbundled axes))).mpr
      ⟨by simp, h.canTake_iff.mpr hseen, rfl, rfl⟩
  rw [takeAxes_append, htake, ok_bind, List.nil_append]

theorem Bundles.bundle_of_fits (hfits : Fits axes lists.flatten names) :
    ∃ t, s.bundle names = .ok t := by
  obtain ⟨b, hb⟩ := ofAxes_of_fits hfits
  rw [← h.filterMap_find? hfits.fresh] at hb
  exact ⟨_, (bundle_eq_ok_iff (h.nodup (nodup_unbundled axes))).mpr
    ⟨h.canTake_iff.mpr hfits.toTakeable, b, hb, rfl⟩⟩

theorem Bundles.bundle_of_fault (hfault : Fault axes lists.flatten names e) :
    s.bundle names = .error e := by
  have hnames {seen : List String} (hseen : Takeable axes lists.flatten seen) :
      (seen.filterMap (Axis.find? s.axes)).map (·.name) = seen :=
    Axis.map_name_filterMap_find? (h.canTake_iff.mpr hseen).known
  cases hfault with
  | @repeated seen later name hsplit hseen hname =>
    subst hsplit
    refine bundle_eq_error ?_
    rw [h.takeAxes_of_takeable hseen, takeAxes_cons, hnames hseen, if_pos]
    rcases List.mem_append.mp hname with hname | hname
    · exact .inr (h.isBundled_iff.mpr hname)
    · exact .inl hname
  | @unknown seen later name hsplit hseen hname haxis =>
    subst hsplit
    obtain ⟨hused, hnew⟩ := not_or.mp (mt List.mem_append.mpr hname)
    have hnone : Axis.find? (s.without seen).axes name = none := by
      rw [without, Axis.find?_filter hnew, Axis.find?_eq_none_iff, h.mem_axes_iff]
      exact fun hin => haxis hin.1
    refine bundle_eq_error ?_
    rw [h.takeAxes_of_takeable hseen, takeAxes_cons, hnames hseen, if_neg, hnone]
    exact not_or.mpr ⟨hnew, fun hb => hused (h.isBundled_iff.mp hb)⟩
  | empty hsplit =>
    subst hsplit
    rfl
  | @uneven seen later first name firstSize size hsplit hall hfirst hseen hsize hne =>
    have htake := h.takeAxes_of_takeable hall []
    rw [List.append_nil, takeAxes, h.filterMap_find? hall.fresh] at htake
    rw [bundle, htake, ok_bind]
    dsimp only
    rw [ofAxes_of_uneven hsplit hall hfirst hseen hsize hne]
    rfl

end Bundles

theorem ofAxes_eq (axes : List Axis) (lists : List (List String)) :
    ofAxes axes lists = lists.foldlM bundle (unbundled axes) := by
  rw [ofAxes, setAxes_empty, ofCall, ok_bind, unbundled]

/-- Lists of names can be bundled one after another. -/
theorem bundleable_iff {lists : List (List String)} :
    Bundleable axes lists ↔ ∃ s, ofAxes axes lists = .ok s := by
  simp only [ofAxes_eq]
  induction lists using List.reverseRecOn with
  | nil => exact ⟨fun _ => ⟨_, rfl⟩, fun _ => ⟨nofun, nofun, .nil, nofun, nofun⟩⟩
  | append_singleton lists names ih =>
    rw [bundleable_concat, ih]
    constructor
    · rintro ⟨⟨s, hs⟩, hfits⟩
      obtain ⟨t, ht⟩ := (bundles_of_foldlM (nodup_unbundled axes) hs).bundle_of_fits hfits
      exact ⟨t, foldlM_concat_eq_ok.mpr ⟨s, hs, ht⟩⟩
    · rintro ⟨t, h⟩
      obtain ⟨s, hs, ht⟩ := foldlM_concat_eq_ok.mp h
      refine ⟨⟨s, hs⟩, (fits_or_fault axes lists.flatten names).resolve_right ?_⟩
      rintro ⟨e, hfault⟩
      have he := (bundles_of_foldlM (nodup_unbundled axes) hs).bundle_of_fault hfault
      cases he.symm.trans ht

/-- A sweep over some axes is built exactly if the lists of names can be bundled, and otherwise
the first fault of the first list that does not fit behind the ones before it is reported. -/
theorem ofAxes_spec (axes : List Axis) (lists : List (List String)) :
    ((∃ s, ofAxes axes lists = .ok s) ↔ Bundleable axes lists) ∧
      ∀ e, ofAxes axes lists = .error e ↔ ∃ before names after,
        lists = before ++ names :: after ∧ Bundleable axes before ∧
          Fault axes before.flatten names e := by
  refine ⟨bundleable_iff.symm, fun e => ⟨fun h => ?_, ?_⟩⟩
  · rw [ofAxes_eq] at h
    obtain ⟨before, names, after, s, rfl, hs, he⟩ := foldlM_eq_error h
    have hbundles := bundles_of_foldlM (nodup_unbundled axes) hs
    refine ⟨before, names, after, rfl, bundleable_iff.mpr ⟨s, (ofAxes_eq axes before).trans hs⟩, ?_⟩
    rcases fits_or_fault axes before.flatten names with hfits | ⟨e', hfault⟩
    · obtain ⟨t, ht⟩ := hbundles.bundle_of_fits hfits
      cases he.symm.trans ht
    · obtain rfl := Except.error.inj (he.symm.trans (hbundles.bundle_of_fault hfault))
      exact hfault
  · rintro ⟨before, names, after, rfl, hbefore, hfault⟩
    obtain ⟨s, hs⟩ := bundleable_iff.mp hbefore
    rw [ofAxes_eq] at hs ⊢
    have hbundles := bundles_of_foldlM (nodup_unbundled axes) hs
    exact foldlM_of_error hs (hbundles.bundle_of_fault hfault) after

/-- Of the two axes `a` the last one goes into a bundle, in the place that the names give it; `d`
keeps its axis. The names of a list are read before its sizes are compared, and the lists one by
one. -/
theorem ofAxes_spec_of_bundles :
    let b : Axis := ⟨"b", [.bool true, .bool false]⟩
    let c : Axis := ⟨"c", [.string "u"]⟩
    let d : Axis := ⟨"d", []⟩
    let axes : List Axis := [⟨"a", [.int 1]⟩, b, d, c, ⟨"a", [.int 2, .int 3]⟩]
    ofAxes axes [["b", "a"], ["c"]] =
        .ok { empty with axes := [d], bundles := [⟨[b, ⟨"a", [.int 2, .int 3]⟩]⟩, ⟨[c]⟩] } ∧
      Bundleable axes [["b", "a"], ["c"]] ∧
      ofAxes axes [["b", "a"], ["d", "c", "a"], []] = .error (.alreadyBundled "a") := by
  intro b c d axes
  obtain ⟨hok, -⟩ := ofAxes_spec axes [["b", "a"], ["c"]]
  obtain ⟨-, herror⟩ := ofAxes_spec axes [["b", "a"], ["d", "c", "a"], []]
  obtain ⟨hbefore, -⟩ := ofAxes_spec axes [["b", "a"]]
  refine ⟨rfl, hok.mp ⟨_, rfl⟩, (herror _).mpr ?_⟩
  have hseen : Takeable axes ["b", "a"] ["d", "c"] := ⟨by decide, by decide, by decide⟩
  have hsplit : ["d", "c", "a"] = ["d", "c"] ++ "a" :: [] := rfl
  exact ⟨[["b", "a"]], ["d", "c", "a"], [[]], rfl, hbefore.mp ⟨_, rfl⟩,
    .repeated hsplit hseen (by decide)⟩

end ParamSweep.Sweep
