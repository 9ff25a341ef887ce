import ParamSweep.Proofs.Session.Invariant

/-! # How a session ends

A session gets past the first runs of its sweep. It has done those of them that were due,
and kept that; then the sweep is at its end, or the task fails on the next run, or the
progress cannot be kept after it.
-/

namespace ParamSweep.Session

/-- How a session over some runs ends that got past the first of them. -/
inductive Ends (done : String → Nat) (rs : List Run) :
    List Run → Except SessionError Summary → List Call → Prop
  | finished : Ends done rs rs
      (.ok ⟨(due done rs).length, rs.length - (due done rs).length⟩) ((due done rs).map .kept)
  | failed {pre rest : List Run} {r : Run} {reason : String} : rs = pre ++ r :: rest →
      done r.key ≤ occurrences pre r.key → Ends done rs pre
        (.error (.task r.combination r.repetition reason))
        ((due done pre).map .kept ++ [.failed r reason])
  | unsaved {pre rest : List Run} {r : Run} {e : StoreError} : rs = pre ++ r :: rest →
      done r.key ≤ occurrences pre r.key → Ends done rs pre (.error (.store e))
        ((due done pre).map .kept ++ [.unsaved r e])

theorem Ends.ne_count {done : String → Nat} {rs pre : List Run}
    {result : Except SessionError Summary} {calls : List Call}
    (h : Ends done rs pre result calls) (e : CountError) : result ≠ .error (.count e) := by
  cases h <;> nofun

theorem Ends.isPrefix {done : String → Nat} {rs pre : List Run}
    {result : Except SessionError Summary} {calls : List Call}
    (h : Ends done rs pre result calls) : pre <+: rs := by
  cases h with
  | finished => exact List.prefix_rfl
  | failed hrs => exact ⟨_, hrs.symm⟩
  | unsaved hrs => exact ⟨_, hrs.symm⟩

variable {σ : Type}

/-- What a session does and leaves that got past some runs. -/
structure Outcome (store : Store) (files : σ → Files) (host : Host σ) (sweep : Sweep) (w : σ)
    (pre : List Run) (r : Report σ) : Prop where
  same : r.sweep = sweep
  ends : Ends (store.stored (files w)) sweep.runs pre r.result r.calls
  idle : due (store.stored (files w)) pre = [] →
    store.load (files r.world) = store.load (files w)
  kept : due (store.stored (files w)) pre ≠ [] → ∃ p,
    store.load (files r.world) = .ok (some p) ∧ p.fingerprint = sweep.fingerprint ∧
    (∀ q, store.load (files w) = .ok (some q) → p.createdAt = q.createdAt) ∧
    ∀ key, p.done key = max (store.stored (files w) key) (occurrences pre key)
  /-- Without a store that fails, nothing is written before a run is done, ... -/
  untouched : (∀ e, r.result ≠ .error (.store e)) →
    due (store.stored (files w)) pre = [] → files r.world = files w
  /-- ... and the store stays ready. -/
  ready : (∀ e, r.result ≠ .error (.store e)) → store.Ready (files w) → store.Ready (files r.world)
  /-- A store that fails was ready if it was at first. -/
  refused : ∀ e, r.result = .error (.store e) → store.Ready (files w) →
    ∃ p w', store.Ready (files w') ∧ (host.save p w').1 = .error e

variable {store : Store} {files : σ → Files} {host : Host σ} {sweep : Sweep} {w : σ}

structure Starts (store : Store) (files : σ → Files) (sweep : Sweep) (w : σ) (p : Progress) :
    Prop where
  sound : p.IsSound
  fingerprint : p.fingerprint = sweep.fingerprint
  createdAt : ∀ q, store.load (files w) = .ok (some q) → p.createdAt = q.createdAt
  done : p.done = store.stored (files w)

theorem begin_eq (fingerprint : String) (hw : host.WorksOn store files) {old : Option Progress}
    (hload : store.load (files w) = .ok old) : begin host fingerprint w =
      .ok { old.getD (.new fingerprint (host.now w)) with fingerprint } := by
  rw [begin, hw.loadOrNew, Store.loadOrNew, hload]
  rfl

theorem begin_spec (sweep : Sweep) (hw : host.WorksOn store files) {old : Option Progress}
    (hload : store.load (files w) = .ok old) :
    ∃ p, begin host sweep.fingerprint w = .ok p ∧ Starts store files sweep w p := by
  refine ⟨_, begin_eq sweep.fingerprint hw hload, ?_⟩
  cases old with
  | none =>
    refine ⟨.new (hw.now w), rfl, fun q hq => ?_, ?_⟩
    · cases hload.symm.trans hq
    · funext key
      rw [Store.stored, hload]
      rfl
  | some p =>
    have hp := Store.isSound_of_load hload
    refine ⟨⟨hp.created, hp.updated⟩, rfl, fun q hq => ?_, ?_⟩
    · cases hload.symm.trans hq
      rfl
    · funext key
      rw [Store.stored, hload]
      rfl

theorem Holds.outcome {p₀ : Progress} {pre : List Run} {t : State (σ × List Call)}
    (h : Holds store files w p₀ pre t) (hstarts : Starts store files sweep w p₀) {r : Report σ}
    (hsweep : r.sweep = sweep)
    (hends : Ends (store.stored (files w)) sweep.runs pre r.result r.calls)
    (hfind : (files r.world).find store.path = (files t.world.1).find store.path)
    (hfiles : (∀ e, r.result ≠ .error (.store e)) → files r.world = files t.world.1)
    (hrefused : ∀ e, r.result = .error (.store e) → store.Ready (files w) →
      ∃ p w', store.Ready (files w') ∧ (host.save p w').1 = .error e) :
    Outcome store files host sweep w pre r := by
  have hload : store.load (files r.world) = store.load (files t.world.1) := by
    rw [Store.load, Store.load, hfind]
  have hdone := hstarts.done
  refine ⟨hsweep, hends, ?_, ?_, ?_, ?_, hrefused⟩
  · intro hd
    rw [hload, h.idle (hdone ▸ hd)]
  · intro hd
    refine ⟨t.progress, ?_, ?_, ?_, ?_⟩
    · rw [hload, h.kept (hdone ▸ hd)]
    · rw [h.fingerprint, hstarts.fingerprint]
    · intro q hq
      rw [h.createdAt, hstarts.createdAt q hq]
    · intro key
      rw [h.done, hdone]
  · intro hne hd
    rw [hfiles hne, h.idle (hdone ▸ hd)]
  · intro hne hready
    rw [hfiles hne]
    exact h.ready hready

theorem report_eq {p₀ : Progress} (h : begin host sweep.fingerprint w = .ok p₀) :
    report host sweep w =
      match sweep.runs.foldlM (step host.logged) ⟨p₀, .empty, ⟨0, 0⟩, (w, [])⟩ with
      | .ok s => ⟨sweep, .ok s.summary, s.world.2, s.world.1⟩
      | .error (e, w', calls) => ⟨sweep, .error e, calls, w'⟩ := by
  have hb : begin host.logged sweep.fingerprint (w, []) = .ok p₀ := h
  rw [report, run, hb]
  dsimp only
  rw [Sweep.walk_eq_foldlM]
  cases sweep.runs.foldlM (step host.logged) ⟨p₀, .empty, ⟨0, 0⟩, (w, [])⟩ <;> rfl

/-- Every session gets past some first runs. -/
theorem report_spec (hw : host.WorksOn store files) {old : Option Progress}
    (hload : store.load (files w) = .ok old) (hn : sweep.runs.length < 2 ^ 64) :
    ∃ pre, Outcome store files host sweep w pre (report host sweep w) := by
  obtain ⟨p₀, hbegin, hstarts⟩ := begin_spec sweep hw hload
  rw [report_eq hbegin]
  cases hfold : sweep.runs.foldlM (step host.logged) ⟨p₀, .empty, ⟨0, 0⟩, (w, [])⟩ with
  | ok s =>
    have hs := holds_of_foldlM hw hstarts.sound hfold
    have hsummary : s.summary = ⟨(due p₀.done sweep.runs).length,
        sweep.runs.length - (due p₀.done sweep.runs).length⟩ := by
      rw [← hs.skipped, ← hs.executed]
    refine ⟨sweep.runs, hs.outcome hstarts rfl ?_ rfl (fun _ => rfl) (fun e he => nomatch he)⟩
    rw [← hstarts.done]
    dsimp only
    rw [hs.calls, hsummary]
    exact .finished
  | error x =>
    obtain ⟨pre, r, rest, t, hrs, hpre, hr⟩ := foldlM_eq_error hfold
    have ht := holds_of_foldlM hw hstarts.sound hpre
    have hdue (hge : t.progress.done r.key ≤ t.before r) :
        store.stored (files w) r.key ≤ occurrences pre r.key := by
      rw [← hstarts.done]
      exact Nat.le_of_not_lt (mt (ht.before_lt_iff r).mpr (Nat.not_lt_of_le hge))
    refine ⟨pre, ?_⟩
    have hstep := step_logged host t r
    rw [hr] at hstep
    cases hstep with
    | @failed reason w' hge htask =>
      have hfiles := hw.task _ _ _ _ htask
      refine ht.outcome hstarts rfl ?_ (by rw [hfiles]) (fun _ => hfiles) (fun e he => nomatch he)
      dsimp only
      rw [ht.calls, hstarts.done]
      exact .failed hrs (hdue hge)
    | uncounted =>
      have hlen : pre.length + 1 < 2 ^ 64 := by
        rw [hrs, List.length_append, List.length_cons] at hn
        omega
      exact absurd hr (ht.counts.hasRoom hlen r).ne_count
    | @unsaved p reason w₁ w' hge htask hrecord hsave =>
      have hfiles := hw.task _ _ _ _ htask
      refine ht.outcome hstarts rfl ?_ ?_ (fun hne => absurd rfl (hne reason)) ?_
      · dsimp only
        rw [ht.calls, hstarts.done]
        exact .unsaved hrs (hdue hge)
      · rw [← hfiles]
        exact hw.save_error _ _ _ _ hsave
      · rintro e ⟨⟩ hready
        exact ⟨_, w₁, hfiles ▸ ht.ready hready, by rw [hsave]⟩

variable {pre : List Run} {r : Report σ}

/-- What is kept afterwards is what was kept or what the session got past, of each key the larger
count. -/
theorem Outcome.stored (h : Outcome store files host sweep w pre r) (key : String) :
    store.stored (files r.world) key =
      max (store.stored (files w) key) (occurrences pre key) := by
  by_cases hd : due (store.stored (files w)) pre = []
  · have hocc := occurrences_due (store.stored (files w)) pre key
    rw [hd, occurrences_nil] at hocc
    rw [Store.stored, h.idle hd, ← Store.stored]
    omega
  · obtain ⟨p, hload, -, -, hp⟩ := h.kept hd
    rw [Store.stored, hload]
    exact hp key

theorem Outcome.load (h : Outcome store files host sweep w pre r) {old : Option Progress}
    (hload : store.load (files w) = .ok old) : ∃ new, store.load (files r.world) = .ok new := by
  by_cases hd : due (store.stored (files w)) pre = []
  · exact ⟨old, (h.idle hd).trans hload⟩
  · obtain ⟨p, hp, -⟩ := h.kept hd
    exact ⟨some p, hp⟩

theorem report_of_le (hw : host.WorksOn store files) {old : Option Progress}
    (hload : store.load (files w) = .ok old) (hn : sweep.runs.length < 2 ^ 64)
    (hle : ∀ key, occurrences sweep.runs key ≤ store.stored (files w) key) :
    (report host sweep w).calls = [] ∧
      (report host sweep w).result = .ok ⟨0, sweep.runs.length⟩ := by
  obtain ⟨pre, hpre⟩ := report_spec hw hload hn
  have hends := hpre.ends
  generalize (report host sweep w).calls = calls, (report host sweep w).result = result at hends
  cases hends with
  | finished =>
    rw [due_eq_nil hle]
    exact ⟨rfl, rfl⟩
  | failed hruns hge =>
    exact absurd (occurrences_lt hruns) (Nat.not_lt_of_le (Nat.le_trans (hle _) hge))
  | unsaved hruns hge =>
    exact absurd (occurrences_lt hruns) (Nat.not_lt_of_le (Nat.le_trans (hle _) hge))

/-! ### What is read off a report -/

theorem Outcome.passed_eq (h : Outcome store files host sweep w pre r)
    (hne : ∀ e, r.result ≠ .error (.store e)) : r.passed = pre := by
  obtain ⟨s, result, calls, w'⟩ := r
  obtain rfl : s = sweep := h.same
  have hends : Ends (store.stored (files w)) s.runs pre result calls := h.ends
  cases hends with
  | finished => rfl
  | @failed _ rest q reason hruns _ =>
    have hnodup := s.nodup_runs
    rw [hruns, List.map_append, List.map_cons, List.nodup_append] at hnodup
    obtain ⟨-, -, hdisjoint⟩ := hnodup
    rw [Report.passed]
    dsimp only
    rw [hruns, List.takeWhile_append_of_pos, List.takeWhile_cons_of_neg, List.append_nil]
    · simp
    · intro q hq
      simpa using hdisjoint _ (List.mem_map_of_mem hq) _ List.mem_cons_self
  | unsaved _ _ => exact absurd rfl (hne _)

theorem filter_kept {p : Call → Bool} (hp : ∀ r, p (.kept r)) (rs : List Run) :
    (rs.map Call.kept).filter p = rs.map .kept :=
  List.filter_eq_self.mpr fun c hc => by
    obtain ⟨r, -, rfl⟩ := List.mem_map.mp hc
    exact hp r

theorem filter_isSuccess_kept (rs : List Run) :
    (rs.map Call.kept).filter Call.isSuccess = rs.map .kept :=
  filter_kept (fun _ => rfl) rs

theorem filter_isKept_kept (rs : List Run) :
    (rs.map Call.kept).filter Call.isKept = rs.map .kept :=
  filter_kept (fun _ => rfl) rs

theorem Outcome.kept_eq (h : Outcome store files host sweep w pre r) :
    r.kept = (due (store.stored (files w)) pre).map (·.assignment) := by
  have hends := h.ends
  rw [Report.kept]
  generalize r.result = result, r.calls = calls at hends
  have hmap (rs : List Run) : (rs.map Call.kept).map (·.assignment) = rs.map (·.assignment) := by
    rw [List.map_map]
    rfl
  cases hends with
  | finished => rw [filter_isKept_kept, hmap]
  | failed _ _ =>
    rw [List.filter_append, filter_isKept_kept, List.map_append, hmap]
    exact List.append_nil _
  | unsaved _ _ =>
    rw [List.filter_append, filter_isKept_kept, List.map_append, hmap]
    exact List.append_nil _

theorem Outcome.successes_eq (h : Outcome store files host sweep w pre r)
    (hne : ∀ e, r.result ≠ .error (.store e)) : r.successes = r.kept := by
  have hends := h.ends
  rw [Report.kept, Report.successes]
  generalize r.result = result, r.calls = calls at hends hne
  cases hends with
  | finished => rw [filter_isKept_kept, filter_isSuccess_kept]
  | failed _ _ =>
    rw [List.filter_append, List.filter_append, filter_isKept_kept, filter_isSuccess_kept]
    rfl
  | unsaved _ _ => exact absurd rfl (hne _)

end ParamSweep.Session
