import Mathlib.Data.List.Perm.Basic
import ParamSweep.Proofs.Session.Resume

/-! # Sessions of different sweeps

A store on which nothing was kept at first tells after some sessions of each key how far
the session got that came farthest with it, and so how often the task succeeded for it.
The order of sessions that all finish does not matter, and none of them finds anything to
do again.
-/

namespace ParamSweep.Session

structure Job (τ : Type) where
  sweep : Sweep
  task : Assignment → τ → Except String Unit × τ

variable {τ : Type} {store : Store} {now : τ → Instant} {w : World τ}

def history (store : Store) (now : τ → Instant) (jobs : List (Job τ)) (w : World τ) :
    List (Report (World τ)) :=
  reports (jobs.map fun j => (hostOf store now j.task, j.sweep)) w

/-- The largest count of a key among the runs that some sessions got past. -/
def most {σ : Type} (rs : List (Report σ)) (key : String) : Nat :=
  (rs.map fun r => occurrences r.passed key).foldl max 0

theorem history_concat (jobs : List (Job τ)) (j : Job τ) :
    history store now (jobs ++ [j]) w = history store now jobs w ++
      [report (hostOf store now j.task) j.sweep (worldAfter (history store now jobs w) w)] := by
  rw [history, List.map_append]
  exact reports_concat _ _ w

theorem most_concat {σ : Type} (rs : List (Report σ)) (r : Report σ) (key : String) :
    most (rs ++ [r]) key = max (most rs key) (occurrences r.passed key) := by
  rw [most, List.map_append, List.foldl_append]
  rfl

theorem le_most {σ : Type} {rs : List (Report σ)} {r : Report σ} (h : r ∈ rs) (key : String) :
    occurrences r.passed key ≤ most rs key := by
  induction rs using List.reverseRecOn with
  | nil => exact nomatch h
  | append_singleton rs r' ih =>
    rw [most_concat]
    rcases List.mem_append.mp h with h | h
    · exact Nat.le_trans (ih h) (Nat.le_max_left _ _)
    · obtain rfl := List.mem_singleton.mp h
      exact Nat.le_max_right _ _

/-- What a store tells after some sessions. -/
structure Tells (store : Store) (rs : List (Report (World τ))) (fs : Files) : Prop where
  load : ∃ kept, store.load fs = .ok kept
  ready : store.Ready fs
  unfailing : ∀ r ∈ rs, ∀ e, r.result ≠ .error (.store e)
  most : ∀ key, store.stored fs key = most rs key
  total : ∀ key, store.stored fs key =
    ((rs.flatMap Report.successes).map Assignment.key).count key

theorem tells_nil (hload : store.load w.files = .ok none) (hready : store.Ready w.files) :
    Tells store ([] : List (Report (World τ))) w.files := by
  have hzero (key : String) : store.stored w.files key = 0 := by
    rw [Store.stored, hload]
  exact ⟨⟨none, hload⟩, hready, fun r hr => absurd hr List.not_mem_nil, hzero, hzero⟩

variable {rs : List (Report (World τ))} {sweep : Sweep}
  {task : Assignment → τ → Except String Unit × τ}

/-- What one session keeps up: its successful calls bring the count of each key up to what it got
past. -/
theorem Tells.report (h : Tells store rs w.files) (hnow : ∀ t, (now t).IsReal)
    (hn : sweep.runs.length < 2 ^ 64) :
    Tells store (rs ++ [report (hostOf store now task) sweep w])
      (report (hostOf store now task) sweep w).world.files := by
  obtain ⟨hr, hne⟩ := report_hostOf task h.load h.ready hnow hn
  obtain ⟨old, hload⟩ := h.load
  generalize Session.report (hostOf store now task) sweep w = r at hr hne
  refine ⟨hr.load hload, hr.ready hne h.ready, ?_, ?_, ?_⟩
  · intro r' hr'
    rcases List.mem_append.mp hr' with hr' | hr'
    · exact h.unfailing r' hr'
    · obtain rfl := List.mem_singleton.mp hr'
      exact hne
  · intro key
    rw [hr.stored, h.most, most_concat]
  · intro key
    have hsuccesses : (r.successes.map Assignment.key).count key =
        occurrences r.passed key - store.stored w.files key := by
      rw [hr.successes_eq hne, hr.kept_eq, List.map_map, ← occurrences_due]
      rfl
    rw [hr.stored, List.flatMap_append, List.map_append, List.count_append, ← h.total,
      List.flatMap_singleton, hsuccesses]
    omega

theorem tells_history (hload : store.load w.files = .ok none) (hready : store.Ready w.files)
    (hnow : ∀ t, (now t).IsReal) {jobs : List (Job τ)}
    (hn : ∀ j ∈ jobs, j.sweep.runs.length < 2 ^ 64) :
    Tells store (history store now jobs w) (worldAfter (history store now jobs w) w).files := by
  induction jobs using List.reverseRecOn with
  | nil => exact tells_nil hload hready
  | append_singleton jobs j ih =>
    rw [history_concat, worldAfter_concat]
    have hj : j.sweep.runs.length < 2 ^ 64 :=
      hn j (List.mem_append_right _ (List.mem_singleton_self j))
    exact (ih fun j' hj' => hn j' (List.mem_append_left _ hj')).report hnow hj

/-- Each session is told to have got past the runs that it skipped or did and kept. -/
theorem ends_history (hload : store.load w.files = .ok none) (hready : store.Ready w.files)
    (hnow : ∀ t, (now t).IsReal) {jobs : List (Job τ)}
    (hn : ∀ j ∈ jobs, j.sweep.runs.length < 2 ^ 64) {i : Nat} {r : Report (World τ)}
    (hr : (history store now jobs w)[i]? = some r) :
    Ends (store.stored (worldAfter ((history store now jobs w).take i) w).files) r.sweep.runs
      r.passed r.result r.calls := by
  have htake : (history store now jobs w).take i = history store now (jobs.take i) w := by
    rw [history, take_reports, history, List.map_take]
  have hn' : ∀ j ∈ jobs.take i, j.sweep.runs.length < 2 ^ 64 := fun j hj =>
    hn j (List.mem_of_mem_take hj)
  have htells := tells_history hload hready hnow hn'
  rw [history, getElem?_reports, ← history, htake, List.getElem?_map, Option.map_map] at hr
  obtain ⟨j, hj, rfl⟩ := Option.map_eq_some_iff.mp hr
  rw [htake]
  exact (report_hostOf j.task htells.load htells.ready hnow
    (hn j (List.mem_of_getElem? hj))).1.ends

theorem sweeps_history (jobs : List (Job τ)) :
    (history store now jobs w).map (·.sweep) = jobs.map (·.sweep) := by
  induction jobs using List.reverseRecOn with
  | nil => rfl
  | append_singleton jobs j ih =>
    rw [history_concat, List.map_append, ih, List.map_append]
    rfl

theorem most_of_finished (h : ∀ r ∈ rs, ∃ summary, r.result = .ok summary) (key : String) :
    most rs key =
      ((rs.map (·.sweep)).map fun s => occurrences s.runs key).foldl max 0 := by
  have hpassed : (rs.map fun r => occurrences r.passed key) =
      rs.map fun r => occurrences r.sweep.runs key :=
    List.map_congr_left fun r hr => by
      obtain ⟨summary, hok⟩ := h r hr
      rw [Report.passed, hok]
  rw [most, hpassed, List.map_map]
  rfl

/-- Sessions of any sweeps with any tasks on a store that can keep progress, where nothing was kept
at first. -/
theorem history_spec {jobs : List (Job τ)} (hload : store.load w.files = .ok none)
    (hsave : ∀ p, (store.save p w.files).1 = .ok ()) (hnow : ∀ t, (now t).IsReal)
    (hn : ∀ j ∈ jobs, j.sweep.runs.length < 2 ^ 64) :
    let rs := history store now jobs w
    let fs := (worldAfter rs w).files
    rs.map (·.sweep) = jobs.map (·.sweep) ∧ (∀ r ∈ rs, ∀ e, r.result ≠ .error (.store e)) ∧
    (∀ i r, rs[i]? = some r → Ends (store.stored (worldAfter (rs.take i) w).files) r.sweep.runs
      r.passed r.result r.calls) ∧
    (∀ key, store.stored fs key = most rs key ∧
      store.stored fs key = ((rs.flatMap Report.successes).map Assignment.key).count key) ∧
    ((∀ r ∈ rs, ∃ summary, r.result = .ok summary) → ∀ jobs' : List (Job τ),
      (jobs'.map (·.sweep)).Perm (jobs.map (·.sweep)) →
      (∀ r ∈ history store now jobs' w, ∃ summary, r.result = .ok summary) →
      ∀ key, store.stored (worldAfter (history store now jobs' w) w).files key =
        store.stored fs key) ∧
    ∀ r ∈ rs, (∃ summary, r.result = .ok summary) → ∀ task,
      let again := report (hostOf store now task) r.sweep (worldAfter rs w)
      again.calls = [] ∧ again.result = .ok ⟨0, r.sweep.runs.length⟩ := by
  have hready : store.Ready w.files :=
    Store.ready_of_save (hsave (.new "" (now w.work)))
  have htells := tells_history hload hready hnow hn
  refine ⟨sweeps_history jobs, htells.unfailing, fun i r => ends_history hload hready hnow hn,
    fun key => ⟨htells.most key, htells.total key⟩, ?_, ?_⟩
  · intro hall jobs' hperm hall' key
    have hn' : ∀ j ∈ jobs', j.sweep.runs.length < 2 ^ 64 := by
      intro j hj
      obtain ⟨j', hj', he⟩ := List.mem_map.mp (hperm.mem_iff.mp (List.mem_map_of_mem hj))
      rw [← he]
      exact hn j' hj'
    rw [(tells_history hload hready hnow hn').most, htells.most, most_of_finished hall,
      most_of_finished hall', sweeps_history, sweeps_history]
    exact (hperm.map _).foldl_eq 0
  · rintro r hr ⟨summary, hsummary⟩ task
    obtain ⟨kept, hkept⟩ := htells.load
    have hmem := List.mem_map_of_mem (f := (·.sweep)) hr
    rw [sweeps_history] at hmem
    obtain ⟨j, hj, he⟩ := List.mem_map.mp hmem
    apply report_of_le (worksOn_hostOf store task hnow) hkept (he ▸ hn j hj)
    intro key
    have hle := le_most hr key
    rw [← htells.most, Report.passed, hsummary] at hle
    exact hle

/-- A session breaks off at its third call. Then one of its runs is asked for no more and the others
are asked for twice, in a session that finishes. -/
theorem history_spec_of_changed :
    let store : Store := ⟨["progress.json"]⟩
    let now : Nat → Instant := fun _ => ⟨⟨2024, 2, 29⟩, 3600, 0⟩
    let task : Assignment → Nat → Except String Unit × Nat := fun _ n => (.ok (), n + 1)
    let stopped : Assignment → Nat → Except String Unit × Nat := fun _ n =>
      (if n = 2 then .error "stopped" else .ok (), n + 1)
    let sweep : Sweep := ⟨1, [], [⟨"x", [.int 1, .int 2, .int 3]⟩], []⟩
    let changed : Sweep := ⟨2, [], [⟨"x", [.int 2, .int 3]⟩], []⟩
    let jobs : List (Job Nat) := [⟨sweep, stopped⟩, ⟨changed, task⟩]
    let w : World Nat := ⟨.empty, 0⟩
    let rs := history store now jobs w
    store.load w.files = .ok none ∧ (∀ p, (store.save p w.files).1 = .ok ()) ∧
      (∀ t, (now t).IsReal) ∧ (∀ j ∈ jobs, j.sweep.runs.length < 2 ^ 64) ∧
      (∃ first second summary, rs = [first, second] ∧
        first.calls.map Call.bare = [(.ofList [("x", .int 1)], .ok ()),
          (.ofList [("x", .int 2)], .ok ()), (.ofList [("x", .int 3)], .error "stopped")] ∧
        second.result = .ok summary) ∧
      ∀ key, store.stored (worldAfter rs w).files key = most rs key ∧
        store.stored (worldAfter rs w).files key =
          ((rs.flatMap Report.successes).map Assignment.key).count key := by
  intro store now task stopped sweep changed jobs w rs
  have hload : store.load w.files = .ok none := Store.load_empty (by decide)
  have hready : store.Ready w.files := Store.ready_progress
  have hnow (t : Nat) : (now t).IsReal := ⟨by decide, by decide, by decide, by decide⟩
  have hn : ∀ j ∈ jobs, j.sweep.runs.length < 2 ^ 64 := by
    simp only [jobs, sweep, changed, List.forall_mem_cons, Sweep.runs_eq_flatMap]
    decide
  obtain ⟨-, -, -, htold, -⟩ := history_spec hload hready.save_eq_ok hnow hn
  refine ⟨hload, hready.save_eq_ok, hnow, hn, ?_, htold⟩
  obtain ⟨hn₁, hrest⟩ := List.forall_mem_cons.mp hn
  have hn₂ := hrest _ (List.mem_singleton_self _)
  -- The first session does what a run of its sweep does, and leaves the store ready.
  have hruns : sweep.runs = [⟨0, 0, 1, .ofList [("x", .int 1)]⟩,
      ⟨1, 0, 1, .ofList [("x", .int 2)]⟩, ⟨2, 0, 1, .ofList [("x", .int 3)]⟩] := by
    rw [Sweep.runs_eq_flatMap]
    rfl
  have htry : (sweep.tryRun (logTask stopped) (w.work, [])).2 = _ :=
    tryRun_eq_report hload hready hnow hn₁
  have hcalls := congrArg Prod.snd htry
  rw [Sweep.tryRun_eq, hruns] at hcalls
  obtain ⟨houtcome, hne⟩ := report_hostOf stopped ⟨none, hload⟩ hready hnow hn₁
  have htask (a : Assignment) (n : Nat) : (task a n).1 = .ok () := rfl
  obtain ⟨summary, hsummary⟩ := report_of_task_ok htask (houtcome.load hload)
    (houtcome.ready hne hready) hnow hn₂
  exact ⟨_, _, summary, rfl, hcalls.symm, hsummary⟩

end ParamSweep.Session
