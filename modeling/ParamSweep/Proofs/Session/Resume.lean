import ParamSweep.Proofs.Session.Ends

/-! # Taking up a sweep again

A session on a store that can keep progress calls its task for the runs that are due, in
order, and ends after the first call that fails. It leaves of each key the larger one of
the count it found and the count of the runs it got past. If it found nothing, its calls
are those of a run of the whole sweep.
-/

namespace ParamSweep.Session

variable {τ : Type} {store : Store} {now : τ → Instant} {sweep : Sweep} {w : World τ}
  {task : Assignment → τ → Except String Unit × τ}

theorem worksOn_hostOf (store : Store) (task : Assignment → τ → Except String Unit × τ)
    (hnow : ∀ t, (now t).IsReal) : (hostOf store now task).WorksOn store World.files where
  loadOrNew _ _ := rfl
  now w := hnow w.work
  task _ _ _ _ h := by
    rw [← (Prod.mk.inj h).2]
  save p w w' h := by
    obtain ⟨hresult, rfl⟩ := Prod.mk.inj h
    exact Prod.ext hresult rfl
  save_error p w e w' h := by
    obtain ⟨hresult, rfl⟩ := Prod.mk.inj h
    exact Store.find_of_save_eq_error hresult

theorem report_hostOf (task : Assignment → τ → Except String Unit × τ)
    (hload : ∃ old, store.load w.files = .ok old) (hready : store.Ready w.files)
    (hnow : ∀ t, (now t).IsReal) (hn : sweep.runs.length < 2 ^ 64) :
    Outcome store World.files (hostOf store now task) sweep w
      (report (hostOf store now task) sweep w).passed
      (report (hostOf store now task) sweep w) ∧
    ∀ e, (report (hostOf store now task) sweep w).result ≠ .error (.store e) := by
  obtain ⟨old, hload⟩ := hload
  obtain ⟨pre, hpre⟩ := report_spec (worksOn_hostOf store task hnow) hload hn
  have hne : ∀ e, (report (hostOf store now task) sweep w).result ≠ .error (.store e) := by
    intro e he
    obtain ⟨p, w', hready', hsave⟩ := hpre.refused e he hready
    have hok : ((hostOf store now task).save p w').1 = .ok () := hready'.save_eq_ok p
    cases hok.symm.trans hsave
  rw [hpre.passed_eq hne]
  exact ⟨hpre, hne⟩

/-- Where progress can be kept, only the task breaks a session off. -/
theorem report_hostOf_cases (task : Assignment → τ → Except String Unit × τ) {p₀ : Progress}
    (hbegin : begin (hostOf store now task) sweep.fingerprint w = .ok p₀)
    (hload : ∃ old, store.load w.files = .ok old) (hready : store.Ready w.files)
    (hnow : ∀ t, (now t).IsReal) (hn : sweep.runs.length < 2 ^ 64) :
    (∃ s, sweep.runs.foldlM (step (hostOf store now task).logged)
        ⟨p₀, .empty, ⟨0, 0⟩, (w, [])⟩ = .ok s ∧
      report (hostOf store now task) sweep w = ⟨sweep, .ok s.summary, s.world.2, s.world.1⟩) ∨
    ∃ pre r rest s reason w', sweep.runs = pre ++ r :: rest ∧
      pre.foldlM (step (hostOf store now task).logged) ⟨p₀, .empty, ⟨0, 0⟩, (w, [])⟩ = .ok s ∧
      (hostOf store now task).task r.assignment s.world.1 = (.error reason, w') ∧
      report (hostOf store now task) sweep w =
        ⟨sweep, .error (.task r.combination r.repetition reason),
          s.world.2 ++ [.failed r reason], w'⟩ := by
  obtain ⟨houtcome, hne⟩ := report_hostOf task hload hready hnow hn
  have hcount := houtcome.ends.ne_count
  rw [report_eq hbegin] at hne hcount ⊢
  cases hfold : sweep.runs.foldlM (step (hostOf store now task).logged)
      ⟨p₀, .empty, ⟨0, 0⟩, (w, [])⟩ with
  | ok s => exact .inl ⟨s, rfl, rfl⟩
  | error x =>
    rw [hfold] at hne hcount
    obtain ⟨pre, r, rest, s, hruns, hpre, hr⟩ := foldlM_eq_error hfold
    have hstep := step_logged (hostOf store now task) s r
    rw [hr] at hstep
    cases hstep with
    | failed _ htask => exact .inr ⟨pre, r, rest, s, _, _, hruns, hpre, htask, rfl⟩
    | uncounted => exact absurd rfl (hcount _)
    | unsaved => exact absurd rfl (hne _)

/-- A session finishes if its task never fails and progress can be kept. -/
theorem report_of_task_ok (htask : ∀ a x, (task a x).1 = .ok ())
    (hload : ∃ old, store.load w.files = .ok old) (hready : store.Ready w.files)
    (hnow : ∀ t, (now t).IsReal) (hn : sweep.runs.length < 2 ^ 64) :
    ∃ summary, (report (hostOf store now task) sweep w).result = .ok summary := by
  obtain ⟨old, hold⟩ := hload
  obtain ⟨p₀, hbegin, -⟩ := begin_spec sweep (worksOn_hostOf store task hnow) hold
  rcases report_hostOf_cases task hbegin ⟨old, hold⟩ hready hnow hn with
    ⟨s, -, hr⟩ | ⟨-, r, -, s, reason, w', -, -, hfail, -⟩
  · exact ⟨s.summary, by rw [hr]⟩
  · have hresult : (task r.assignment s.world.1.work).1 = .error reason := congrArg Prod.fst hfail
    cases (htask _ _).symm.trans hresult

def logTask (task : Assignment → τ → Except String Unit × τ) (a : Assignment)
    (s : τ × List (Assignment × Except String Unit)) :
    Except String Unit × τ × List (Assignment × Except String Unit) :=
  let (result, work) := task a s.1
  (result, work, s.2 ++ [(a, result)])

def Call.bare (c : Call) : Assignment × Except String Unit := (c.assignment, c.result)

theorem task_eq_of_hostOf {a : Assignment} {w w' : World τ} {result : Except String Unit}
    (h : (hostOf store now task).task a w = (result, w')) : task a w.work = (result, w'.work) := by
  obtain ⟨hresult, rfl⟩ := Prod.mk.inj h
  exact Prod.ext hresult rfl

theorem work_eq_of_hostOf {p : Progress} {w w' : World τ} {result : Except StoreError Unit}
    (h : (hostOf store now task).save p w = (result, w')) : w'.work = w.work := by
  rw [← (Prod.mk.inj h).2]

section TryRun

variable {p₀ : Progress} {pre : List Run} {s : State (World τ × List Call)} {r : Run}

theorem tryStep_logTask {n : Nat} {world w' : World τ} {calls : List Call}
    {result : Except String Unit}
    (h : (hostOf store now task).task r.assignment world = (result, w')) :
    Sweep.tryStep (logTask task) (n, world.work, calls.map Call.bare) r =
      match result with
      | .ok () => .ok (n + 1, w'.work, calls.map Call.bare ++ [(r.assignment, .ok ())])
      | .error e => .error (e, w'.work, calls.map Call.bare ++ [(r.assignment, .error e)]) := by
  rw [Sweep.tryStep, logTask, task_eq_of_hostOf h]
  cases result <;> rfl

theorem foldlM_tryStep (hnow : ∀ t, (now t).IsReal) (hsound : p₀.IsSound)
    (hzero : ∀ key, p₀.done key = 0)
    (hs : pre.foldlM (step (hostOf store now task).logged) ⟨p₀, .empty, ⟨0, 0⟩, (w, [])⟩ = .ok s) :
    pre.foldlM (Sweep.tryStep (logTask task)) (0, w.work, []) =
      .ok (pre.length, s.world.1.work, s.world.2.map Call.bare) := by
  induction pre using List.reverseRecOn generalizing s with
  | nil =>
    obtain rfl := Except.ok.inj hs
    rfl
  | append_singleton pre r ih =>
    obtain ⟨t, ht, hr⟩ := foldlM_concat_eq_ok.mp hs
    have hholds := holds_of_foldlM (worksOn_hostOf store task hnow) hsound ht
    refine foldlM_concat_eq_ok.mpr ⟨_, ih ht, ?_⟩
    have hstep := step_logged (hostOf store now task) t r
    rw [hr] at hstep
    cases hstep with
    | skipped hlt =>
      rw [hholds.before_lt_iff, hzero] at hlt
      exact absurd hlt (Nat.not_lt_zero _)
    | @finished p w₁ w₂ _ htask _ hsave =>
      rw [tryStep_logTask htask, List.length_append, List.length_singleton]
      show _ = Except.ok (_, w₂.work, (t.world.2 ++ [Call.kept r]).map Call.bare)
      rw [work_eq_of_hostOf hsave, List.map_append]
      rfl

/-- If nothing was kept, a session does what a run of the whole sweep does. -/
theorem tryRun_eq_report (hload : store.load w.files = .ok none) (hready : store.Ready w.files)
    (hnow : ∀ t, (now t).IsReal) (hn : sweep.runs.length < 2 ^ 64) :
    (sweep.tryRun (logTask task) (w.work, [])).2 =
      ((report (hostOf store now task) sweep w).world.work,
        (report (hostOf store now task) sweep w).calls.map Call.bare) := by
  have hw := worksOn_hostOf store task hnow
  obtain ⟨p₀, hbegin, hstarts⟩ := begin_spec sweep hw hload
  have hzero (key : String) : p₀.done key = 0 := by
    rw [hstarts.done, Store.stored, hload]
  rw [Sweep.tryRun_eq]
  rcases report_hostOf_cases task hbegin ⟨none, hload⟩ hready hnow hn with
    ⟨s, hs, hr⟩ | ⟨pre, r, rest, s, reason, w', hruns, hs, htask, hr⟩
  · rw [hr, foldlM_tryStep hnow hstarts.sound hzero hs]
  · have htry := foldlM_tryStep hnow hstarts.sound hzero hs
    rw [hr, hruns, foldlM_of_error htry (tryStep_logTask htask) rest, List.map_append]
    rfl

end TryRun

/-- A session on a store that can keep progress, which had counts of some keys kept or none. -/
theorem report_spec_of_ready (task : Assignment → τ → Except String Unit × τ)
    (hload : ∃ old, store.load w.files = .ok old)
    (hsave : ∀ p, (store.save p w.files).1 = .ok ()) (hnow : ∀ t, (now t).IsReal)
    (hn : sweep.runs.length < 2 ^ 64) :
    let done := store.stored w.files
    let r := report (hostOf store now task) sweep w
    let pre := r.passed
    run (hostOf store now task) sweep w = (r.result, r.world) ∧
    ((pre = sweep.runs ∧ r.calls = (due done pre).map .kept ∧
        r.result = .ok ⟨r.calls.length, sweep.runs.length - r.calls.length⟩) ∨
      ∃ q rest reason, sweep.runs = pre ++ q :: rest ∧ done q.key ≤ occurrences pre q.key ∧
        r.calls = (due done pre).map .kept ++ [.failed q reason] ∧
        r.result = .error (.task q.combination q.repetition reason)) ∧
    (∀ key, store.stored r.world.files key = max (done key) (occurrences pre key)) ∧
    (r.successes = [] → r.world.files = w.files) ∧
    (r.successes ≠ [] → ∃ p, store.load r.world.files = .ok (some p) ∧
      p.fingerprint = sweep.fingerprint ∧
      ∀ q, store.load w.files = .ok (some q) → p.createdAt = q.createdAt) ∧
    (store.load w.files = .ok none → (sweep.tryRun (logTask task) (w.work, [])).2 =
      (r.world.work, r.calls.map Call.bare)) := by
  have hready : store.Ready w.files :=
    Store.ready_of_save (hsave (.new sweep.fingerprint (now w.work)))
  obtain ⟨hr, hne⟩ := report_hostOf task hload hready hnow hn
  intro done r pre
  -- The calls that succeeded are as many as the due runs that were got past.
  have hsuccesses : r.successes = (due done pre).map (·.assignment) :=
    (hr.successes_eq hne).trans hr.kept_eq
  refine ⟨run_eq_report _ sweep w, ?_, hr.stored, ?_, ?_, ?_⟩
  · have hends : Ends done sweep.runs pre r.result r.calls := hr.ends
    generalize r.result = result, r.calls = calls, pre = passed at hends hne ⊢
    cases hends with
    | finished =>
      refine .inl ⟨rfl, rfl, ?_⟩
      rw [List.length_map]
    | failed hruns hge => exact .inr ⟨_, _, _, hruns, hge, rfl, rfl⟩
    | unsaved _ _ => exact absurd rfl (hne _)
  · intro hs
    rw [hsuccesses, List.map_eq_nil_iff] at hs
    exact hr.untouched hne hs
  · intro hs
    rw [hsuccesses, ne_eq, List.map_eq_nil_iff] at hs
    obtain ⟨p, hp, hfingerprint, hcreated, -⟩ := hr.kept hs
    exact ⟨p, hp, hfingerprint, hcreated⟩
  · intro hnone
    exact tryRun_eq_report hnone hready hnow hn

/-- A task that fails on its third call, in a sweep that asks for one assignment twice. -/
theorem report_spec_of_third_call :
    let store : Store := ⟨["progress.json"]⟩
    let now : Nat → Instant := fun _ => ⟨⟨2024, 2, 29⟩, 3600, 0⟩
    let task : Assignment → Nat → Except String Unit × Nat := fun _ n =>
      (if n < 2 then .ok () else .error "stopped", n + 1)
    let sweep : Sweep := ⟨1, [], [⟨"x", [.int 1, .int 1, .int 2]⟩], []⟩
    let w : World Nat := ⟨.empty, 0⟩
    store.load w.files = .ok none ∧ (∀ p, (store.save p w.files).1 = .ok ()) ∧
      (∀ t, (now t).IsReal) ∧ sweep.runs.length < 2 ^ 64 ∧
      (report (hostOf store now task) sweep w).calls.map Call.bare =
        [(.ofList [("x", .int 1)], .ok ()), (.ofList [("x", .int 1)], .ok ()),
          (.ofList [("x", .int 2)], .error "stopped")] := by
  intro store now task sweep w
  have hload : store.load w.files = .ok none := Store.load_empty (by decide)
  have hready : store.Ready w.files := Store.ready_progress
  have hsave : ∀ p, (store.save p w.files).1 = .ok () := hready.save_eq_ok
  have hnow (t : Nat) : (now t).IsReal := ⟨by decide, by decide, by decide, by decide⟩
  have hruns : sweep.runs = sweep.runsOf [3] 0 ++ sweep.runsOf [3] 1 ++ sweep.runsOf [3] 2 := by
    rw [Sweep.runs_eq_flatMap]
    rfl
  have hn : sweep.runs.length < 2 ^ 64 := by
    rw [Sweep.runs_eq_flatMap]
    decide
  have hold : ∃ old, store.load w.files = .ok old := ⟨none, hload⟩
  obtain ⟨-, -, -, -, -, htry⟩ := report_spec_of_ready task hold hsave hnow hn
  have hcalls := congrArg Prod.snd (htry hload)
  rw [Sweep.tryRun_eq, hruns] at hcalls
  exact ⟨hload, hsave, hnow, hn, hcalls.symm⟩

end ParamSweep.Session
