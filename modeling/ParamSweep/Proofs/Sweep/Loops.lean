import ParamSweep.Proofs.NameMap
import ParamSweep.Proofs.Sweep.Reachable
import ParamSweep.Proofs.Sweep.Subscripts
import ParamSweep.Proofs.Sweep.Walk

/-! # A sweep as nested loops

A cursor counts combinations and finds the subscripts of each by division. What it finds
are the runs of nested loops, one loop for each axis and for each bundle, whose body runs
an assignment as often as the rules say.
-/

namespace ParamSweep.Sweep

variable {s : Sweep}

/-- An assignment that has the values at some subscripts, one for each axis and then one for
each bundle. -/
structure Binds (s : Sweep) (is : List Nat) (a : Assignment) : Prop where
  own : ∀ (j : Nat) (axis : Axis), s.axes[j]? = some axis →
    ∃ i v, is[j]? = some i ∧ axis.values[i]? = some v ∧ a.get? axis.name = some v
  /-- The parameters of a bundle share its subscript. -/
  shared : ∀ (j : Nat) (b : Bundle), s.bundles[j]? = some b →
    ∃ i, is[s.axes.length + j]? = some i ∧
      ∀ axis ∈ b.axes, ∃ v, axis.values[i]? = some v ∧ a.get? axis.name = some v
  /-- No other parameter has a value. -/
  only : ∀ name, name ∉ s.names → a.get? name = none

/-- The runs of nested loops over all subscripts, of which the last moves fastest, where the
loops bind an assignment to each tuple of subscripts. -/
def loops (s : Sweep) (bound : List Nat → Assignment) : List Run :=
  (tuples s.sizes).zipIdx.flatMap fun (is, c) =>
    let n := (s.repeatCount (bound is)).toNat
    (List.range n).map fun i => ⟨c, i, n, bound is⟩

theorem binding?_eq {axis : Axis} {i : Nat} (h : i < axis.size) :
    ∃ v, axis.values[i]? = some v ∧ axis.binding? i = some (axis.name, v) :=
  ⟨axis.values[i], List.getElem?_eq_getElem h, by
    rw [Axis.binding?, List.getElem?_eq_getElem h, Option.map_some]⟩

theorem axisBindings_spec {axes : List Axis} {is sizes : List Nat}
    (h : List.Forall₂ (· < ·) is (axes.map Axis.size ++ sizes)) :
    ((List.zipWith Axis.binding? axes is).filterMap id).map (·.1) = axes.map (·.name) ∧
      ∀ (j : Nat) (axis : Axis), axes[j]? = some axis → ∃ i v, is[j]? = some i ∧
        axis.values[i]? = some v ∧
        (axis.name, v) ∈ (List.zipWith Axis.binding? axes is).filterMap id := by
  induction axes generalizing is with
  | nil => simp
  | cons axis axes ih =>
    rw [List.map_cons, List.cons_append, List.forall₂_cons_right_iff] at h
    obtain ⟨i, is, hi, his, rfl⟩ := h
    obtain ⟨hnames, hmem⟩ := ih his
    obtain ⟨v, hv, hb⟩ := binding?_eq hi
    rw [List.zipWith_cons_cons, List.filterMap_cons_some (by exact hb)]
    refine ⟨by rw [List.map_cons, hnames, List.map_cons], fun j other hj => ?_⟩
    cases j with
    | zero =>
      obtain rfl := Option.some.inj hj
      exact ⟨i, v, rfl, hv, List.mem_cons_self⟩
    | succ j =>
      obtain ⟨k, w, hk, hw, hin⟩ := hmem j other hj
      exact ⟨k, w, hk, hw, List.mem_cons_of_mem _ hin⟩

theorem bundleBinding_spec {axes : List Axis} {i : Nat} (h : ∀ axis ∈ axes, i < axis.size) :
    (axes.filterMap (·.binding? i)).map (·.1) = axes.map (·.name) ∧
      ∀ axis ∈ axes, ∃ v, axis.values[i]? = some v ∧
        (axis.name, v) ∈ axes.filterMap (·.binding? i) := by
  induction axes with
  | nil => simp
  | cons axis axes ih =>
    obtain ⟨hi, hs⟩ := List.forall_mem_cons.mp h
    obtain ⟨hnames, hmem⟩ := ih hs
    obtain ⟨v, hv, hb⟩ := binding?_eq hi
    rw [List.filterMap_cons_some (by exact hb)]
    refine ⟨by rw [List.map_cons, hnames, List.map_cons], fun other ho => ?_⟩
    rcases List.mem_cons.mp ho with rfl | ho
    · exact ⟨v, hv, List.mem_cons_self⟩
    · obtain ⟨w, hw, hin⟩ := hmem other ho
      exact ⟨w, hw, List.mem_cons_of_mem _ hin⟩

theorem bundleBindings_spec {bundles : List Bundle} {is : List Nat}
    (hb : ∀ b ∈ bundles, ∀ axis ∈ b.axes, axis.size = b.size)
    (h : List.Forall₂ (· < ·) is (bundles.map Bundle.size)) :
    ((List.zipWith Bundle.bindings bundles is).flatten).map (·.1) =
        bundles.flatMap Bundle.names ∧
      ∀ (j : Nat) (b : Bundle), bundles[j]? = some b → ∃ i, is[j]? = some i ∧
        ∀ axis ∈ b.axes, ∃ v, axis.values[i]? = some v ∧
          (axis.name, v) ∈ (List.zipWith Bundle.bindings bundles is).flatten := by
  induction bundles generalizing is with
  | nil => simp
  | cons b bundles ih =>
    rw [List.map_cons, List.forall₂_cons_right_iff] at h
    obtain ⟨i, is, hi, his, rfl⟩ := h
    obtain ⟨hsize, hsizes⟩ := List.forall_mem_cons.mp hb
    obtain ⟨hnames, hmem⟩ := ih hsizes his
    obtain ⟨hname, hin⟩ := bundleBinding_spec fun axis ha => (hsize axis ha).symm ▸ hi
    rw [List.zipWith_cons_cons, List.flatten_cons, List.map_append, List.flatMap_cons]
    refine ⟨by rw [hnames, Bundle.bindings, hname, Bundle.names], fun j other hj => ?_⟩
    cases j with
    | zero =>
      obtain rfl := Option.some.inj hj
      refine ⟨i, rfl, fun axis ha => ?_⟩
      obtain ⟨v, hv, hm⟩ := hin axis ha
      exact ⟨v, hv, List.mem_append_left _ hm⟩
    | succ j =>
      obtain ⟨k, hk, hks⟩ := hmem j other hj
      refine ⟨k, hk, fun axis ha => ?_⟩
      obtain ⟨v, hv, hm⟩ := hks axis ha
      exact ⟨v, hv, List.mem_append_right _ hm⟩

theorem WellFormed.map_bindings (h : s.WellFormed) {is : List Nat}
    (his : List.Forall₂ (· < ·) is s.sizes) : (s.bindings is).map (·.1) = s.names := by
  have hdrop := List.forall₂_drop_append _ _ _ his
  rw [List.length_map] at hdrop
  rw [bindings, List.map_append, (axisBindings_spec his).1,
    (bundleBindings_spec h.bundle_size hdrop).1, names]

/-- The bindings at subscripts in range make up an assignment that binds the subscripts. -/
theorem WellFormed.binds (h : s.WellFormed) {is : List Nat}
    (his : List.Forall₂ (· < ·) is s.sizes) : s.Binds is (.ofList (s.bindings is)) := by
  have hdrop := List.forall₂_drop_append _ _ _ his
  rw [List.length_map] at hdrop
  obtain ⟨-, hownMem⟩ := axisBindings_spec his
  obtain ⟨-, hsharedMem⟩ := bundleBindings_spec h.bundle_size hdrop
  have hnames := h.map_bindings his
  have hget : ∀ {name : String} {v : Value}, (name, v) ∈ s.bindings is →
      (NameMap.ofList (s.bindings is)).get? name = some v := fun hm =>
    (NameMap.get?_ofList_of_nodup (hnames ▸ h.nodup)).mpr hm
  refine ⟨?_, ?_, ?_⟩
  · intro j axis hj
    obtain ⟨i, v, hi, hv, hm⟩ := hownMem j axis hj
    exact ⟨i, v, hi, hv, hget (List.mem_append_left _ hm)⟩
  · intro j b hj
    obtain ⟨i, hi, hm⟩ := hsharedMem j b hj
    refine ⟨i, by rwa [List.getElem?_drop] at hi, ?_⟩
    intro axis ha
    obtain ⟨v, hv, hin⟩ := hm axis ha
    exact ⟨v, hv, hget (List.mem_append_right _ hin)⟩
  · intro name hn
    rw [← hnames] at hn
    rw [Option.eq_none_iff_forall_ne_some]
    intro v hv
    have hm := (NameMap.get?_ofList_of_nodup (hnames ▸ h.nodup)).mp hv
    exact hn (List.mem_map.mpr ⟨_, hm, rfl⟩)

theorem Binds.unique {is : List Nat} {a b : Assignment} (ha : s.Binds is a) (hb : s.Binds is b) :
    a = b := by
  apply NameMap.ext_get?
  intro name
  by_cases hn : name ∈ s.names
  · rcases List.mem_append.mp hn with hn | hn
    · obtain ⟨axis, hm, rfl⟩ := List.mem_map.mp hn
      obtain ⟨j, hj⟩ := List.mem_iff_getElem?.mp hm
      obtain ⟨i, v, hi, hv, h⟩ := ha.own j axis hj
      obtain ⟨i', v', hi', hv', h'⟩ := hb.own j axis hj
      obtain rfl := Option.some.inj (hi.symm.trans hi')
      rw [h, h', ← hv, ← hv']
    · obtain ⟨b', hm, hin⟩ := List.mem_flatMap.mp hn
      obtain ⟨axis, haxis, rfl⟩ := List.mem_map.mp hin
      obtain ⟨j, hj⟩ := List.mem_iff_getElem?.mp hm
      obtain ⟨i, hi, hs⟩ := ha.shared j b' hj
      obtain ⟨i', hi', hs'⟩ := hb.shared j b' hj
      obtain rfl := Option.some.inj (hi.symm.trans hi')
      obtain ⟨v, hv, h⟩ := hs axis haxis
      obtain ⟨v', hv', h'⟩ := hs' axis haxis
      rw [h, h', ← hv, ← hv']
  · rw [ha.only name hn, hb.only name hn]

theorem zipIdx_map_range {α : Type} (f : Nat → α) (n : Nat) :
    ((List.range n).map f).zipIdx = (List.range n).map fun c => (f c, c) := by
  have hz : (List.range n).zip (List.range n) = (List.range n).map fun c => (c, c) := by
    simpa using List.zip_map' (f := id) (g := id) (l := List.range n)
  rw [List.zipIdx_eq_zip_range', List.length_map, List.length_range, ← List.range_eq_range',
    List.zip_map_left, hz, List.map_map]
  rfl

theorem runs_eq_zipIdx {bound : List Nat → Assignment}
    (hb : ∀ c < s.combinationCount, bound (subscripts c s.sizes) = s.assignment s.sizes c) :
    s.runs = ((tuples s.sizes).take countLimit).zipIdx.flatMap fun (is, c) =>
      let n := (s.repeatCount (bound is)).toNat
      (List.range n).map fun i => ⟨c, i, n, bound is⟩ := by
  have hcount : s.combinationCount = min countLimit s.sizes.prod := by
    rw [combinationCount, countOf_eq_min, Nat.min_comm]
  rw [runs_eq_flatMap, tuples_eq_map, ← List.map_take, List.take_range, ← hcount,
    zipIdx_map_range, List.flatMap_map]
  refine List.flatMap_congr fun c hc => ?_
  rw [runsOf, ← hb c (List.mem_range.mp hc)]

/-- Where all combinations are counted, the runs are those of the nested loops. -/
theorem loops_eq_runs {bound : List Nat → Assignment} (hp : s.sizes.prod ≤ countLimit)
    (hb : ∀ c < s.sizes.prod, bound (subscripts c s.sizes) = s.assignment s.sizes c) :
    s.loops bound = s.runs := by
  have hcount : s.combinationCount = s.sizes.prod := countOf_eq_prod hp
  have hlength : (tuples s.sizes).length ≤ countLimit := by
    rwa [tuples_eq_map, List.length_map, List.length_range]
  rw [runs_eq_zipIdx (hcount ▸ hb), List.take_of_length_le hlength, loops]

/-- Calling for the next run again and again gives the runs of the nested loops one by one, and
nothing any more once nothing came. -/
theorem Reachable.call_eq_loops (h : s.Reachable) (hp : s.sizes.prod ≤ 2 ^ 64 - 1) :
    (∀ is ∈ tuples s.sizes, ∃! a, s.Binds is a) ∧
      (∀ bound : List Nat → Assignment, (∀ is ∈ tuples s.sizes, s.Binds is (bound is)) →
        ∀ n, s.call n = (s.loops bound)[n]?) ∧
      ∀ m n, m ≤ n → s.call m = none → s.call n = none := by
  have hbinds : ∀ is ∈ tuples s.sizes, s.Binds is (.ofList (s.bindings is)) := fun is his =>
    h.wellFormed.binds (mem_tuples.mp his)
  refine ⟨fun is his => ⟨_, hbinds is his, fun a ha => ha.unique (hbinds is his)⟩, ?_, ?_⟩
  · intro bound hbound n
    have hb : ∀ c < s.sizes.prod, bound (subscripts c s.sizes) = s.assignment s.sizes c := by
      intro c hc
      have hmem : subscripts c s.sizes ∈ tuples s.sizes := by
        rw [tuples_eq_map]
        exact List.mem_map.mpr ⟨c, List.mem_range.mpr hc, rfl⟩
      exact (hbound _ hmem).unique (hbinds _ hmem)
    rw [call_eq_getElem?, loops_eq_runs hp hb]
  · intro m n hmn hm
    rw [call_eq_getElem?, List.getElem?_eq_none_iff] at hm ⊢
    exact Nat.le_trans hm hmn

/-- Two axes of their own, a bundle of two parameters, and a rule that asks for three runs where
the first parameter is two. -/
theorem call_eq_loops_of_bundle :
    let rule : Rule := fun a => if a.get? "x" = some (.int 2) then some 3 else some 0
    let s : Sweep := ⟨1, [rule], [⟨"x", [.int 1, .int 2]⟩, ⟨"y", [.bool true]⟩],
      [⟨[⟨"a", [.int 1, .int 2]⟩, ⟨"b", [.string "u", .string "v"]⟩]⟩]⟩
    s.Reachable ∧ s.sizes.prod ≤ 2 ^ 64 - 1 ∧
      ∃ bound : List Nat → Assignment, (∀ is ∈ tuples s.sizes, s.Binds is (bound is)) ∧
        ∀ n, s.call n = (s.loops bound)[n]? := by
  intro rule s
  have haxes : (Sweep.empty.addRule rule).setAxes s.axes =
      (.ok (), ⟨1, [rule], s.axes, []⟩) := rfl
  have hbundle : Bundle.ofAxes [⟨"a", [.int 1, .int 2]⟩, ⟨"b", [.string "u", .string "v"]⟩] =
      .ok ⟨[⟨"a", [.int 1, .int 2]⟩, ⟨"b", [.string "u", .string "v"]⟩]⟩ := rfl
  have hs : s.Reachable :=
    .of_addBundle (.of_setAxes (.addRule rule .empty) haxes) hbundle rfl
  have hp : s.sizes.prod ≤ 2 ^ 64 - 1 := by decide
  obtain ⟨hex, hcall, -⟩ := hs.call_eq_loops hp
  refine ⟨hs, hp, fun is => .ofList (s.bindings is), ?_⟩
  have hb : ∀ is ∈ tuples s.sizes, s.Binds is (.ofList (s.bindings is)) := fun is his =>
    hs.wellFormed.binds (mem_tuples.mp his)
  exact ⟨hb, hcall _ hb⟩

end ParamSweep.Sweep
