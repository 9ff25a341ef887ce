import ParamSweep.Proofs.Sweep.Bundling
import ParamSweep.Proofs.Sweep.Edits

/-! # Setting axes

Axes are set all together or not at all: the first one whose name is in a bundle is reported,
and the sweep stays as it was. Otherwise an axis that was there keeps its place and new ones
follow in the order in which their names come first, each with the values that come last.
-/

namespace ParamSweep.Sweep

variable {s t : Sweep} {old new : List Axis}

def bundled (s : Sweep) : List String := s.bundles.flatMap Bundle.names

/-- An axis, or the one that comes last with its name. -/
def replacement (new : List Axis) (axis : Axis) : Axis :=
  (Axis.find? new.reverse axis.name).getD axis

/-- The names that are not there yet, in the order in which they come first. -/
def newNames (old new : List Axis) : List String :=
  ((new.map (·.name)).filter (· ∉ old.map (·.name))).eraseDups

theorem eraseDups_map_name_append (h : (old.map (·.name)).Nodup) :
    ((old ++ new).map (·.name)).eraseDups = old.map (·.name) ++ newNames old new := by
  have hfilter (names others : List String) :
      names.removeAll others = names.filter (· ∉ others) := by
    simp [List.removeAll]
  rw [List.map_append, List.eraseDups_append, eraseDups_of_nodup h, hfilter, newNames]

/-- What putting axes one after another makes of those that were there. -/
theorem putAxes_eq (h : (old.map (·.name)).Nodup) :
    new.foldl (fun as axis => putAxis axis as) old =
      old.map (replacement new) ++
        (newNames old new).filterMap (Axis.find? new.reverse) := by
  have hfind := find?_putAxes new old
  have hnames := map_name_putAxes new h
  rw [eraseDups_map_name_append h] at hnames
  rw [← Axis.filterMap_find?_map_name (nodup_map_name_putAxes new h).1, hnames,
    List.filterMap_append, List.filterMap_map, funext hfind]
  congr 1
  · rw [← List.filterMap_eq_map]
    apply List.filterMap_congr
    intro axis ha
    rw [Function.comp_apply, Function.comp_apply, Axis.find?_of_mem h ha, replacement]
    cases Axis.find? new.reverse axis.name <;> rfl
  · apply List.filterMap_congr
    intro name hn
    rw [newNames, List.mem_eraseDups, List.mem_filter, decide_eq_true_iff] at hn
    rw [Axis.find?_eq_none_iff.mpr hn.2, Option.or_none]

theorem isBundled_eq_false_iff {name : String} :
    s.isBundled name = false ↔ name ∉ s.bundled := by
  rw [← Bool.not_eq_true, isBundled_iff, bundled]

theorem find?_isBundled_eq_some_iff {α : Type} {f : α → String} {as : List α} {a : α} :
    (as.find? fun a => s.isBundled (f a)) = some a ↔
      f a ∈ s.bundled ∧ ∃ seen later, as = seen ++ a :: later ∧
        ∀ other ∈ seen, f other ∉ s.bundled := by
  rw [List.find?_eq_some_iff_append, isBundled_iff, bundled]
  simp only [Bool.not_eq_true', isBundled_eq_false_iff, bundled]

theorem setAxes_eq_error_iff {axes : List Axis} {e : SweepError} :
    (s.setAxes axes).1 = .error e ↔ ∃ seen axis later, axes = seen ++ axis :: later ∧
      (∀ other ∈ seen, other.name ∉ s.bundled) ∧ axis.name ∈ s.bundled ∧
        e = .bundled axis.name := by
  rw [setAxes]
  constructor
  · intro h
    split at h
    · next axis hfind =>
      obtain ⟨hname, seen, later, hsplit, hseen⟩ := find?_isBundled_eq_some_iff.mp hfind
      exact ⟨seen, axis, later, hsplit, hseen, hname, (Except.error.inj h).symm⟩
    · cases h
  · rintro ⟨seen, axis, later, hsplit, hseen, hname, rfl⟩
    rw [find?_isBundled_eq_some_iff.mpr ⟨hname, seen, later, hsplit, hseen⟩]

theorem eq_of_setAxes_eq_error {axes : List Axis} {e : SweepError}
    (h : s.setAxes axes = (.error e, t)) : t = s := by
  rw [setAxes] at h
  split at h
  · exact (congrArg Prod.snd h).symm
  · cases congrArg Prod.fst h

theorem setAxes_eq_ok_iff {axes : List Axis} :
    s.setAxes axes = (.ok (), t) ↔ (∀ axis ∈ axes, axis.name ∉ s.bundled) ∧
      t = { s with axes := axes.foldl (fun as axis => putAxis axis as) s.axes } := by
  have hnone : (axes.find? fun axis => s.isBundled axis.name) = none ↔
      ∀ axis ∈ axes, axis.name ∉ s.bundled := by
    simp only [List.find?_eq_none, Bool.not_eq_true, isBundled_eq_false_iff]
  rw [setAxes, ← hnone]
  split
  · next hfind => simp [hfind]
  · next hfind => simp [hfind, eq_comm]

theorem setAxes_append_eq_ok_iff {axes more : List Axis} :
    s.setAxes (axes ++ more) = (.ok (), t) ↔
      ∃ u, s.setAxes axes = (.ok (), u) ∧ u.setAxes more = (.ok (), t) := by
  simp only [setAxes_eq_ok_iff, List.forall_mem_append, List.foldl_append]
  constructor
  · rintro ⟨⟨haxes, hmore⟩, rfl⟩
    exact ⟨_, ⟨haxes, rfl⟩, hmore, rfl⟩
  · rintro ⟨_, ⟨haxes, rfl⟩, hmore, rfl⟩
    exact ⟨⟨haxes, hmore⟩, rfl⟩

theorem setAxes_append_eq_error_iff {axes more : List Axis} {e : SweepError} :
    (s.setAxes (axes ++ more)).1 = .error e ↔ (s.setAxes axes).1 = .error e ∨
      ∃ u, s.setAxes axes = (.ok (), u) ∧ (u.setAxes more).1 = .error e := by
  rw [setAxes, setAxes, List.find?_append]
  cases hfind : axes.find? fun axis => s.isBundled axis.name with
  | some axis => simp
  | none =>
    -- what is bundled does not change
    have hmore (as : List Axis) : isBundled { s with axes := as } = s.isBundled := rfl
    simp only [Option.none_or, Prod.mk.injEq, true_and, exists_eq_left', reduceCtorEq, false_or]
    rw [setAxes]
    simp only [hmore]
    cases more.find? fun axis => s.isBundled axis.name <;> rfl

/-- Axes are set unless a name is in a bundle, of which the first is reported and nothing
changes. Then every axis keeps its place and the new ones follow in the order of their names,
all with the values that come last, and the rest of the sweep is the same. Setting some axes
and more of them comes to setting the ones and then the others, and fails as they do. -/
theorem setAxes_spec (hs : s.Reachable) (axes : List Axis) :
    (∀ e, (s.setAxes axes).1 = .error e ↔ ∃ seen axis later, axes = seen ++ axis :: later ∧
        (∀ other ∈ seen, other.name ∉ s.bundled) ∧ axis.name ∈ s.bundled ∧
          e = .bundled axis.name) ∧
      (∀ e t, s.setAxes axes = (.error e, t) → t = s) ∧
      (∀ t, s.setAxes axes = (.ok (), t) ↔ (∀ axis ∈ axes, axis.name ∉ s.bundled) ∧
        t = { s with axes := s.axes.map (replacement axes) ++
          (newNames s.axes axes).filterMap (Axis.find? axes.reverse) }) ∧
      (∀ more t, s.setAxes (axes ++ more) = (.ok (), t) ↔
        ∃ u, s.setAxes axes = (.ok (), u) ∧ u.setAxes more = (.ok (), t)) ∧
      (∀ more e, (s.setAxes (axes ++ more)).1 = .error e ↔ (s.setAxes axes).1 = .error e ∨
        ∃ u, s.setAxes axes = (.ok (), u) ∧ (u.setAxes more).1 = .error e) ∧
      s.edit (.setAxes axes) = (s.setAxes axes).2 := by
  have hnodup := (List.nodup_append.mp hs.wellFormed.nodup).1
  refine ⟨fun e => setAxes_eq_error_iff, fun e t => eq_of_setAxes_eq_error, fun t => ?_,
    fun more t => setAxes_append_eq_ok_iff, fun more e => setAxes_append_eq_error_iff, rfl⟩
  rw [← putAxes_eq hnodup]
  exact setAxes_eq_ok_iff

/-- With `b` in a bundle: `x` keeps its place and has the last of its values, and the new `z`
stands before `y` since it comes first. With `b` among the names nothing changes, although the
others come before it. -/
theorem setAxes_spec_of_repeated :
    let x : Axis := ⟨"x", [.int 1, .int 2]⟩
    let a : Axis := ⟨"a", []⟩
    let b : Axis := ⟨"b", [.bool true]⟩
    let s : Sweep := { empty with axes := [x, a], bundles := [⟨[b]⟩] }
    let z (n : Int64) : Axis := ⟨"z", [.int n]⟩
    let y : Axis := ⟨"y", [.string "u"]⟩
    let axes := [z 1, ⟨"x", []⟩, y, z 2, ⟨"x", [.int 3]⟩]
    s.Reachable ∧
      s.setAxes axes = (.ok (), { s with axes := [⟨"x", [.int 3]⟩, a, z 2, y] }) ∧
      s.setAxes (axes ++ [b, z 3]) = (.error (.bundled "b"), s) := by
  intro x a b s z y axes
  have hs : s.Reachable :=
    have hempty : Sweep.empty.setAxes [x, a, ⟨"b", []⟩] = (.ok (), _) := rfl
    have hbundle : Bundle.ofAxes [b] = .ok _ := rfl
    .of_addBundle (.of_setAxes .empty hempty) hbundle rfl
  obtain ⟨-, -, hok, -⟩ := setAxes_spec hs axes
  obtain ⟨herror, hsame, -⟩ := setAxes_spec hs (axes ++ [b, z 3])
  have hfails : (s.setAxes (axes ++ [b, z 3])).1 = .error (.bundled "b") :=
    (herror _).mpr ⟨axes, b, [z 3], rfl, by decide, by decide, rfl⟩
  exact ⟨hs, (hok _).mpr ⟨by decide, rfl⟩, Prod.ext hfails (hsame _ _ (Prod.ext hfails rfl))⟩

end ParamSweep.Sweep
