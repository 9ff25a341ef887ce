import ParamSweep.Proofs.Except
import ParamSweep.Sweep.Runs

/-! # The walk through a sweep

The runs that a cursor has before it are a list, which the cursor takes from the front:
it finds the head and leaves the tail. So a walk is a fold over the list of all runs, in
which every combination has its runs in one piece.
-/

namespace ParamSweep.Sweep

variable {ε σ : Type}

def runsOf (s : Sweep) (sizes : List Nat) (combination : Nat) : List Run :=
  let a := s.assignment sizes combination
  let n := (s.repeatCount a).toNat
  (List.range n).map fun i => ⟨combination, i, n, a⟩

def runsFrom (s : Sweep) (c : Cursor) : List Run :=
  if c.combination < countOf c.sizes then
    (s.runsOf c.sizes c.combination).drop c.repetition ++
      s.runsFrom { c with combination := c.combination + 1, repetition := 0 }
  else []
termination_by countOf c.sizes - c.combination

def runs (s : Sweep) : List Run := s.runsFrom s.start

variable (s : Sweep)

theorem length_runsOf (sizes : List Nat) (c : Nat) :
    (s.runsOf sizes c).length = (s.repeatCount (s.assignment sizes c)).toNat := by
  simp [runsOf]

theorem drop_runsOf {sizes : List Nat} {c i : Nat}
    (h : i < (s.repeatCount (s.assignment sizes c)).toNat) :
    (s.runsOf sizes c).drop i =
      ⟨c, i, (s.repeatCount (s.assignment sizes c)).toNat, s.assignment sizes c⟩ ::
        (s.runsOf sizes c).drop (i + 1) := by
  rw [List.drop_eq_getElem_cons (by rwa [length_runsOf])]
  simp [runsOf]

theorem drop_runsOf_of_le {sizes : List Nat} {c i : Nat}
    (h : (s.repeatCount (s.assignment sizes c)).toNat ≤ i) : (s.runsOf sizes c).drop i = [] := by
  rw [List.drop_eq_nil_iff, length_runsOf]
  exact h

theorem runsFrom_of_lt {c : Cursor} (h : c.combination < countOf c.sizes) :
    s.runsFrom c = (s.runsOf c.sizes c.combination).drop c.repetition ++
      s.runsFrom { c with combination := c.combination + 1, repetition := 0 } := by
  rw [runsFrom, if_pos h]

theorem runsFrom_of_not_lt {c : Cursor} (h : ¬ c.combination < countOf c.sizes) :
    s.runsFrom c = [] := by
  rw [runsFrom, if_neg h]

/-- The cursor finds the first of the runs before it and leaves the others. -/
theorem next_spec (c : Cursor) :
    (s.next c).1 = (s.runsFrom c).head? ∧ s.runsFrom (s.next c).2 = (s.runsFrom c).tail := by
  fun_induction next s c with
  | case1 c hc a n hn =>
    have hr := s.runsFrom_of_lt (c := { c with repetition := c.repetition + 1 }) hc
    have hf : s.runsFrom c = ⟨c.combination, c.repetition, n, a⟩ ::
        s.runsFrom { c with repetition := c.repetition + 1 } := by
      rw [s.runsFrom_of_lt hc, s.drop_runsOf hn, List.cons_append, hr]
    rw [hf]
    exact ⟨rfl, rfl⟩
  | case2 c hc a n hn ih =>
    have hf : s.runsFrom c =
        s.runsFrom { c with combination := c.combination + 1, repetition := 0 } := by
      rw [s.runsFrom_of_lt hc, s.drop_runsOf_of_le (Nat.le_of_not_lt hn), List.nil_append]
    rw [hf]
    exact ih
  | case3 c hc =>
    rw [s.runsFrom_of_not_lt hc]
    exact ⟨rfl, rfl⟩

theorem runsFrom_of_none {c c' : Cursor} (h : s.next c = (none, c')) : s.runsFrom c = [] := by
  have hc := (s.next_spec c).1
  rwa [h, eq_comm, List.head?_eq_none_iff] at hc

theorem runsFrom_of_some {c c' : Cursor} {r : Run} (h : s.next c = (some r, c')) :
    s.runsFrom c = r :: s.runsFrom c' := by
  obtain ⟨hh, ht⟩ := s.next_spec c
  rw [h] at hh ht
  obtain ⟨rs, hrs⟩ := List.head?_eq_some_iff.mp hh.symm
  rw [ht, hrs, List.tail_cons]

theorem walkFrom_eq_foldlM (step : σ → Run → Except ε σ) (c : Cursor) (state : σ) :
    s.walkFrom step c state = (s.runsFrom c).foldlM step state := by
  fun_induction walkFrom s step c state with
  | case1 c state c' h => rw [s.runsFrom_of_none h]; rfl
  | case2 c state r c' h state' hs ih =>
    rw [s.runsFrom_of_some h, List.foldlM_cons, hs, ih]
    rfl
  | case3 c state r c' h e hs =>
    rw [s.runsFrom_of_some h, List.foldlM_cons, hs]
    rfl

/-- A walk does its step for each run in turn. -/
theorem walk_eq_foldlM (step : σ → Run → Except ε σ) (state : σ) :
    s.walk step state = s.runs.foldlM step state :=
  s.walkFrom_eq_foldlM step s.start state

theorem run_eq_foldl (f : Assignment → σ → σ) (state : σ) :
    s.run f state = s.runs.foldl (fun state r => f r.assignment state) state := by
  rw [run, walk_eq_foldlM, foldlM_ok]

theorem run_collect :
    s.run (fun a collected => collected ++ [a]) [] = s.runs.map (·.assignment) := by
  rw [run_eq_foldl, List.foldl_append_eq_append, List.nil_append, ← List.flatMap_def,
    List.map_eq_flatMap]

theorem runsFrom_start_of (sizes : List Nat) (c : Nat) :
    s.runsFrom ⟨sizes, c, 0⟩ =
      (List.range' c (countOf sizes - c)).flatMap (s.runsOf sizes) := by
  by_cases hc : c < countOf sizes
  · have hn : countOf sizes - c = countOf sizes - (c + 1) + 1 := by omega
    rw [s.runsFrom_of_lt hc, hn, List.range'_succ, List.flatMap_cons, List.drop_zero,
      runsFrom_start_of sizes (c + 1)]
  · have hn : countOf sizes - c = 0 := by omega
    rw [s.runsFrom_of_not_lt hc, hn]
    rfl
termination_by countOf sizes - c

theorem runs_eq_flatMap :
    s.runs = (List.range s.combinationCount).flatMap (s.runsOf s.sizes) := by
  rw [runs, start, runsFrom_start_of, Nat.sub_zero, List.range_eq_range']
  rfl

theorem nodup_runs : (s.runs.map fun r => (r.combination, r.repetition)).Nodup := by
  have hof (c : Nat) : (s.runsOf s.sizes c).map (fun r => (r.combination, r.repetition)) =
      (List.range (s.repeatCount (s.assignment s.sizes c)).toNat).map fun i => (c, i) := by
    rw [runsOf, List.map_map]
    rfl
  rw [runs_eq_flatMap, List.map_flatMap]
  simp only [hof]
  rw [List.nodup_iff_pairwise_ne, List.pairwise_flatMap]
  constructor
  · intro c _
    exact List.Pairwise.map _ (fun i j hij h => hij (Prod.mk.inj h).2)
      (List.nodup_iff_pairwise_ne.mp List.nodup_range)
  · refine (List.nodup_iff_pairwise_ne.mp List.nodup_range).imp fun hne => ?_
    intro x hx y hy hxy
    obtain ⟨_, _, rfl⟩ := List.mem_map.mp hx
    obtain ⟨_, _, rfl⟩ := List.mem_map.mp hy
    exact hne (Prod.mk.inj hxy).1

/-- The step of a run with a task that may fail, counting the runs that were done. -/
def tryStep (task : Assignment → σ → Except ε Unit × σ) (s : Nat × σ) (r : Run) :
    Except (ε × σ) (Nat × σ) :=
  match task r.assignment s.2 with
  | (.ok (), state) => .ok (s.1 + 1, state)
  | (.error e, state) => .error (e, state)

theorem tryRun_eq (task : Assignment → σ → Except ε Unit × σ) (state : σ) :
    s.tryRun task state =
      match s.runs.foldlM (tryStep task) (0, state) with
      | .ok (n, state) => (.ok n, state)
      | .error (e, state) => (.error e, state) := by
  rw [tryRun, walk_eq_foldlM]
  rfl

/-- The cursor after so many calls for the next run. -/
def after (s : Sweep) : Nat → Cursor
  | 0 => s.start
  | n + 1 => (s.next (s.after n)).2

/-- What a call for the next run gives after so many calls. -/
def call (s : Sweep) (n : Nat) : Option Run := (s.next (s.after n)).1

theorem runsFrom_after (n : Nat) : s.runsFrom (s.after n) = s.runs.drop n := by
  induction n with
  | zero => rfl
  | succ n ih => rw [after, (s.next_spec _).2, ih, List.tail_drop]

theorem call_eq_getElem? (n : Nat) : s.call n = s.runs[n]? := by
  rw [call, (s.next_spec _).1, runsFrom_after, List.head?_drop]

end ParamSweep.Sweep
