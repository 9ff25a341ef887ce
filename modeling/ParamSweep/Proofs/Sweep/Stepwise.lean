import ParamSweep.Proofs.Sweep.Bundling

/-! # Sweeps built in steps

A sweep over some axes can also be built by setting its axes and then adding one bundle after
another, each made of the axes that its names have by then. This finds all axes of a bundle
before it takes any of them away, and sees a repeated name only when it makes the bundle: it may
report another fault, but it fails for the same names and gives the same sweep for all others.
-/

namespace ParamSweep.Sweep

variable {s t : Sweep} {axes : List Axis} {names : List String}

def lookUp (s : Sweep) (names : List String) : Except SweepError (List Axis) :=
  names.mapM fun name =>
    match Axis.find? s.axes name with
    | some axis => .ok ⟨name, axis.values⟩
    | none => .error (.unknownParameter name)

/-- Adds a bundle of the axes that some names have. -/
def addFound (s : Sweep) (names : List String) : Except SweepError Sweep := do
  ofCall (s.addBundle (← Bundle.ofAxes (← s.lookUp names)))

/-- The sweep over some axes, with one bundle added after another. -/
def assembled (axes : List Axis) (bundles : List (List String)) : Except SweepError Sweep := do
  bundles.foldlM addFound (← ofCall (empty.setAxes axes))

theorem lookUp_eq_ok_iff :
    s.lookUp names = .ok axes ↔ (∀ name ∈ names, name ∈ s.axes.map (·.name)) ∧
      axes = names.filterMap (Axis.find? s.axes) := by
  induction names generalizing axes with
  | nil => simp [lookUp, pure, Except.pure, eq_comm]
  | cons name names ih =>
    have hcons : s.lookUp (name :: names) =
        match Axis.find? s.axes name with
        | some axis => (⟨name, axis.values⟩ :: ·) <$> s.lookUp names
        | none => .error (.unknownParameter name) := by
      rw [lookUp, List.mapM_cons]
      cases Axis.find? s.axes name <;> rfl
    rw [hcons, List.forall_mem_cons]
    cases hfind : Axis.find? s.axes name with
    | none =>
      have hunknown := Axis.find?_eq_none_iff.mp hfind
      exact ⟨nofun, fun h => absurd h.1.1 hunknown⟩
    | some axis =>
      have hname : name ∈ s.axes.map (·.name) :=
        Axis.name_of_find? hfind ▸ List.mem_map_of_mem (Axis.mem_of_find? hfind)
      have haxis : (⟨name, axis.values⟩ : Axis) = axis := by
        rw [← Axis.name_of_find? hfind]
      dsimp only
      rw [haxis, List.filterMap_cons_some hfind]
      constructor
      · intro h
        cases hrest : s.lookUp names with
        | error e =>
          rw [hrest] at h
          cases h
        | ok found =>
          rw [hrest] at h
          obtain rfl := Except.ok.inj h
          obtain ⟨hknown, rfl⟩ := ih.mp hrest
          exact ⟨⟨hname, hknown⟩, rfl⟩
      · rintro ⟨⟨-, hknown⟩, rfl⟩
        rw [ih.mpr ⟨hknown, rfl⟩]
        rfl

/-- Bundling names that have axes of their own comes to adding the bundle of what they have. -/
theorem bundle_eq_ok_iff_addFound (hs : (s.axes.map (·.name)).Nodup) :
    s.bundle names = .ok t ↔ s.addFound names = .ok t := by
  -- a bundle of axes that were found has the names they were looked up by
  have hnames {b : Bundle} (hknown : ∀ name ∈ names, name ∈ s.axes.map (·.name))
      (hb : Bundle.ofAxes (names.filterMap (Axis.find? s.axes)) = .ok b) : b.names = names := by
    rw [Bundle.eq_of_ofAxes hb]
    exact Axis.map_name_filterMap_find? hknown
  rw [bundle_eq_ok_iff hs, addFound, bind_eq_ok]
  constructor
  · rintro ⟨hcan, b, hb, rfl⟩
    refine ⟨_, lookUp_eq_ok_iff.mpr ⟨hcan.known, rfl⟩, bind_eq_ok.mpr ⟨b, hb, ?_⟩⟩
    rw [ofCall_eq_ok, addBundle_eq_ok_iff, hnames hcan.known hb]
    exact ⟨hcan.free, rfl⟩
  · rintro ⟨found, hfound, h⟩
    obtain ⟨hknown, rfl⟩ := lookUp_eq_ok_iff.mp hfound
    obtain ⟨b, hb, hadd⟩ := bind_eq_ok.mp h
    rw [ofCall_eq_ok, addBundle_eq_ok_iff, hnames hknown hb] at hadd
    have hnodup := (Bundle.ofAxes_eq_ok hb).2.1
    rw [hnames hknown hb] at hnodup
    exact ⟨⟨hnodup, hadd.1, hknown⟩, b, hb, hadd.2⟩

theorem foldlM_bundle_eq_ok_iff (lists : List (List String)) (hs : (s.axes.map (·.name)).Nodup) :
    lists.foldlM bundle s = .ok t ↔ lists.foldlM addFound s = .ok t := by
  induction lists generalizing s with
  | nil => rfl
  | cons names lists ih =>
    rw [List.foldlM_cons, List.foldlM_cons, bind_eq_ok, bind_eq_ok]
    refine exists_congr fun u => ?_
    rw [← bundle_eq_ok_iff_addFound hs]
    refine and_congr_right fun hu => ih ?_
    exact (bundles_nil.concat hs hu).nodup hs

/-- A sweep is built at once exactly if it is built in steps, and it is the same sweep: it has
the same axes and bundles in the same order, and with them the same fingerprint and runs. -/
theorem ofAxes_eq_ok_iff_assembled (axes : List Axis) (lists : List (List String)) (s : Sweep) :
    ofAxes axes lists = .ok s ↔ assembled axes lists = .ok s := by
  rw [ofAxes, assembled, setAxes_empty, ofCall, ok_bind, ok_bind]
  have hnil : (([] : List Axis).map (·.name)).Nodup := List.nodup_nil
  exact foldlM_bundle_eq_ok_iff lists (nodup_map_name_putAxes axes hnil).1

/-- Two bundles in one go and in steps, one with an axis that took the place of another. -/
theorem ofAxes_eq_ok_iff_assembled_of_bundles :
    let b : Axis := ⟨"b", [.bool true, .bool false]⟩
    let c : Axis := ⟨"c", [.string "u"]⟩
    let d : Axis := ⟨"d", []⟩
    let axes : List Axis := [⟨"a", [.int 1]⟩, b, d, c, ⟨"a", [.int 2, .int 3]⟩]
    let s : Sweep :=
      { empty with axes := [d], bundles := [⟨[b, ⟨"a", [.int 2, .int 3]⟩]⟩, ⟨[c]⟩] }
    ofAxes axes [["b", "a"], ["c"]] = .ok s ∧ assembled axes [["b", "a"], ["c"]] = .ok s := by
  intro b c d axes s
  have hs : ofAxes axes [["b", "a"], ["c"]] = .ok s := rfl
  exact ⟨hs, (ofAxes_eq_ok_iff_assembled axes _ s).mp hs⟩

/-- A name given twice is met as such while axes are taken, and as unknown once its bundle has
been added. -/
example : let axes : List Axis := [⟨"a", [.int 1]⟩, ⟨"b", [.int 2]⟩]
    (ofAxes axes [["a"], ["b", "a"]], assembled axes [["a"], ["b", "a"]]) =
      (.error (.alreadyBundled "a"), .error (.unknownParameter "a")) := rfl

end ParamSweep.Sweep
