import Mathlib.Data.List.Find
import ParamSweep.Proofs.Sweep.SetAxes

/-! # Adding a bundle

A bundle is added unless one of its parameters is in a bundle already, of which the first is
reported. Its parameters leave their axes and the other axes close ranks, wherever they stand.
So axes of other parameters can be set before it is added or afterwards: neither call notices
the other, and the sweep at the end is the same.
-/

namespace ParamSweep.Sweep

variable {s t : Sweep} {b : Bundle} {axes : List Axis}

theorem addBundle_eq_error_iff {e : SweepError} :
    (s.addBundle b).1 = .error e ↔ ∃ seen name later, b.names = seen ++ name :: later ∧
      (∀ other ∈ seen, other ∉ s.bundled) ∧ name ∈ s.bundled ∧ e = .alreadyBundled name := by
  have hfirst {name : String} : b.names.find? s.isBundled = some name ↔
      name ∈ s.bundled ∧ ∃ seen later, b.names = seen ++ name :: later ∧
        ∀ other ∈ seen, other ∉ s.bundled :=
    find?_isBundled_eq_some_iff (f := id)
  unfold addBundle
  constructor
  · intro h
    split at h
    · next name hfind =>
      obtain ⟨hname, seen, later, hsplit, hseen⟩ := hfirst.mp hfind
      exact ⟨seen, name, later, hsplit, hseen, hname, (Except.error.inj h).symm⟩
    · cases h
  · rintro ⟨seen, name, later, hsplit, hseen, hname, rfl⟩
    rw [hfirst.mpr ⟨hname, seen, later, hsplit, hseen⟩]

theorem eq_of_addBundle_eq_error {e : SweepError} (h : s.addBundle b = (.error e, t)) : t = s := by
  rw [addBundle] at h
  split at h
  · exact (congrArg Prod.snd h).symm
  · cases congrArg Prod.fst h

theorem addBundle_eq_ok_iff_bundled :
    s.addBundle b = (.ok (), t) ↔ (∀ name ∈ b.names, name ∉ s.bundled) ∧
      t = { s.without b.names with bundles := s.bundles ++ [b] } := by
  simp only [addBundle_eq_ok_iff, isBundled_eq_false_iff]

/-- Without the axes of some names, axes of other names are put in the same places. -/
theorem putAxis_filter {names : List String} {axis : Axis} (h : axis.name ∉ names)
    (old : List Axis) :
    putAxis axis (old.filter fun a => a.name ∉ names) =
      (putAxis axis old).filter fun a => a.name ∉ names := by
  induction old with
  | nil => simp [putAxis, h]
  | cons a old ih =>
    by_cases ha : a.name = axis.name
    · simp [putAxis, ha, h]
    · by_cases hn : a.name ∈ names <;> simp_all [putAxis]

theorem putAxes_filter {names : List String} {new : List Axis}
    (h : ∀ axis ∈ new, axis.name ∉ names) (old : List Axis) :
    new.foldl (fun as axis => putAxis axis as) (old.filter fun a => a.name ∉ names) =
      (new.foldl (fun as axis => putAxis axis as) old).filter fun a => a.name ∉ names := by
  induction new generalizing old with
  | nil => rfl
  | cons axis new ih =>
    obtain ⟨ha, hs⟩ := List.forall_mem_cons.mp h
    rw [List.foldl_cons, List.foldl_cons, putAxis_filter ha, ih hs]

/-! ### Calls that do not notice each other -/

theorem setAxes_congr (h : ∀ axis ∈ axes, s.isBundled axis.name = t.isBundled axis.name) :
    (s.setAxes axes).1 = (t.setAxes axes).1 := by
  rw [setAxes, setAxes, List.find?_congr h]
  split <;> rfl

theorem addBundle_congr (h : ∀ name ∈ b.names, s.isBundled name = t.isBundled name) :
    (s.addBundle b).1 = (t.addBundle b).1 := by
  rw [addBundle, addBundle, List.find?_congr h]
  split <;> rfl

theorem setAxes_snd (s : Sweep) (axes : List Axis) :
    (s.setAxes axes).2 =
      if ∀ axis ∈ axes, axis.name ∉ s.bundled then
        { s with axes := axes.foldl (fun as axis => putAxis axis as) s.axes }
      else s := by
  split
  · next h => rw [setAxes_eq_ok_iff.mpr ⟨h, rfl⟩]
  · next h =>
    rcases hs : s.setAxes axes with ⟨e | _, t⟩
    · exact eq_of_setAxes_eq_error hs
    · exact absurd (setAxes_eq_ok_iff.mp hs).1 h

theorem addBundle_snd (s : Sweep) (b : Bundle) :
    (s.addBundle b).2 =
      if ∀ name ∈ b.names, name ∉ s.bundled then
        { s.without b.names with bundles := s.bundles ++ [b] }
      else s := by
  split
  · next h => rw [addBundle_eq_ok_iff_bundled.mpr ⟨h, rfl⟩]
  · next h =>
    rcases hs : s.addBundle b with ⟨e | _, t⟩
    · exact eq_of_addBundle_eq_error hs
    · exact absurd (addBundle_eq_ok_iff_bundled.mp hs).1 h

theorem bundles_setAxes (s : Sweep) (axes : List Axis) :
    (s.setAxes axes).2.bundles = s.bundles := by
  rw [setAxes_snd]
  split <;> rfl

theorem isBundled_addBundle {name : String} (h : name ∉ b.names) :
    (s.addBundle b).2.isBundled name = s.isBundled name := by
  rw [addBundle_snd]
  split
  · have hname : b.contains name = false := by
      rwa [← Bool.not_eq_true, Bundle.contains_iff]
    simp [isBundled, hname]
  · rfl

/-- Axes of other parameters can be set before a bundle is added or afterwards. -/
theorem setAxes_addBundle_comm (h : ∀ axis ∈ axes, axis.name ∉ b.names) :
    ((s.addBundle b).2.setAxes axes).2 = ((s.setAxes axes).2.addBundle b).2 := by
  have hadd : (s.setAxes axes).2.bundled = s.bundled := by
    rw [bundled, bundles_setAxes, bundled]
  have hset : (∀ axis ∈ axes, axis.name ∉ (s.addBundle b).2.bundled) ↔
      ∀ axis ∈ axes, axis.name ∉ s.bundled := by
    simp only [← isBundled_eq_false_iff]
    exact forall₂_congr fun axis ha => by rw [isBundled_addBundle (h axis ha)]
  rw [setAxes_snd (s.addBundle b).2, addBundle_snd (s.setAxes axes).2, hadd]
  simp only [hset]
  rw [setAxes_snd, addBundle_snd]
  split <;> split
  · simp only [without, putAxes_filter h]
  · rfl
  · rfl
  · rfl

/-- A bundle is added unless a parameter of it is in a bundle, of which the first is reported and
nothing changes. Then its parameters have no axes of their own any more, the others keep theirs in
their order, it is the last bundle with the values that it has, and the rest of the sweep is the
same. Setting axes of other parameters ends in the same way before and afterwards, so does adding
the bundle, and in either order the sweep is the same at the end. -/
theorem addBundle_spec (s : Sweep) (b : Bundle) :
    (∀ e, (s.addBundle b).1 = .error e ↔ ∃ seen name later, b.names = seen ++ name :: later ∧
        (∀ other ∈ seen, other ∉ s.bundled) ∧ name ∈ s.bundled ∧ e = .alreadyBundled name) ∧
      (∀ e t, s.addBundle b = (.error e, t) → t = s) ∧
      (∀ t, s.addBundle b = (.ok (), t) ↔ (∀ name ∈ b.names, name ∉ s.bundled) ∧
        t = { s with axes := s.axes.filter fun axis => axis.name ∉ b.names,
                     bundles := s.bundles ++ [b] }) ∧
      (∀ axes : List Axis, (∀ axis ∈ axes, axis.name ∉ b.names) →
        ((s.addBundle b).2.setAxes axes).1 = (s.setAxes axes).1 ∧
          ((s.setAxes axes).2.addBundle b).1 = (s.addBundle b).1 ∧
          ((s.addBundle b).2.setAxes axes).2 = ((s.setAxes axes).2.addBundle b).2) ∧
      ∀ members : List Axis, Bundle.ofAxes members = .ok b →
        s.edit (.addBundle members) = (s.addBundle b).2 := by
  refine ⟨fun e => addBundle_eq_error_iff, fun e t => eq_of_addBundle_eq_error,
    fun t => addBundle_eq_ok_iff_bundled, fun axes h => ?_, fun members hb => edit_addBundle hb s⟩
  refine ⟨setAxes_congr fun axis ha => isBundled_addBundle (h axis ha), ?_,
    setAxes_addBundle_comm h⟩
  apply addBundle_congr
  intro name _
  simp only [isBundled, bundles_setAxes]

/-- `y` leaves its axis for a bundle in which it has another value, and `x` gets other values and
`w` an axis before that or afterwards. A bundle with `c` fails in either order, and the axes are
set. -/
theorem addBundle_spec_of_moved :
    let x : Axis := ⟨"x", [.int 1, .int 2]⟩
    let y : Axis := ⟨"y", [.int 3]⟩
    let c : Axis := ⟨"c", [.bool true]⟩
    let s : Sweep := { empty with axes := [y, x], bundles := [⟨[c]⟩] }
    let b : Bundle := ⟨[⟨"z", [.string "u"]⟩, ⟨"y", [.int 4]⟩]⟩
    let d : Bundle := ⟨[y, c]⟩
    let axes : List Axis := [⟨"w", []⟩, ⟨"x", [.int 5]⟩]
    s.addBundle b = (.ok (), { s with axes := [x], bundles := [⟨[c]⟩, b] }) ∧
      ((s.addBundle b).2.setAxes axes).2 =
        { s with axes := [⟨"x", [.int 5]⟩, ⟨"w", []⟩], bundles := [⟨[c]⟩, b] } ∧
      ((s.setAxes axes).2.addBundle b).2 =
        { s with axes := [⟨"x", [.int 5]⟩, ⟨"w", []⟩], bundles := [⟨[c]⟩, b] } ∧
      s.addBundle d = (.error (.alreadyBundled "c"), s) ∧
      ((s.setAxes axes).2.addBundle d).1 = .error (.alreadyBundled "c") ∧
      ((s.setAxes axes).2.addBundle d).2 =
        { s with axes := [y, ⟨"x", [.int 5]⟩, ⟨"w", []⟩] } := by
  intro x y c s b d axes
  obtain ⟨-, -, hok, hcomm, -⟩ := addBundle_spec s b
  obtain ⟨herror, hsame, -, hfails, -⟩ := addBundle_spec s d
  have hfirst : (s.addBundle d).1 = .error (.alreadyBundled "c") :=
    (herror _).mpr ⟨["y"], "c", [], rfl, by decide, by decide, rfl⟩
  have hleft : (s.addBundle d).2 = s := hsame _ _ (Prod.ext hfirst rfl)
  have hadd : s.addBundle b = (.ok (), { s with axes := [x], bundles := [⟨[c]⟩, b] }) :=
    (hok _).mpr ⟨by decide, rfl⟩
  have hset : ((s.addBundle b).2.setAxes axes).2 =
      { s with axes := [⟨"x", [.int 5]⟩, ⟨"w", []⟩], bundles := [⟨[c]⟩, b] } := by
    rw [hadd]
    rfl
  obtain ⟨-, -, horder⟩ := hcomm axes (by decide)
  obtain ⟨-, houtcome, hfailed⟩ := hfails axes (by decide)
  refine ⟨hadd, hset, horder ▸ hset, Prod.ext hfirst hleft, houtcome.trans hfirst, ?_⟩
  rw [← hfailed, hleft]
  rfl

end ParamSweep.Sweep
