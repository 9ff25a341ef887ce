import Mathlib.Data.List.Infix
import ParamSweep.Proofs.Session.Resume

/-! # Broken off and taken up again

Where nothing was kept at first, what sessions of one sweep keep are always the counts of
the first runs, and the next session goes on with the run after these, however the one
before was broken off. So a run is done again only if progress could not be kept after it,
and sessions up to one that finishes do together what a run of the whole sweep does.
-/

namespace ParamSweep

variable {σ : Type} {store : Store} {files : σ → Files} {host : Host σ}

/-- A host that refuses at times to keep progress, and then does nothing. -/
def Host.refusing (host : Host σ) (refuses : Progress → σ → Option StoreError) : Host σ :=
  { host with
    save := fun p w =>
      match refuses p w with
      | some e => (.error e, w)
      | none => host.save p w }

theorem Host.WorksOn.refusing (hw : host.WorksOn store files)
    (refuses : Progress → σ → Option StoreError) : (host.refusing refuses).WorksOn store files where
  loadOrNew := hw.loadOrNew
  now := hw.now
  task := hw.task
  save p w w' h := by
    rw [Host.refusing] at h
    dsimp only at h
    split at h
    · cases congrArg Prod.fst h
    · exact hw.save p w w' h
  save_error p w e w' h := by
    rw [Host.refusing] at h
    dsimp only at h
    split at h
    · obtain ⟨-, rfl⟩ := Prod.mk.inj h
      rfl
    · exact hw.save_error p w e w' h

namespace Session

variable {sweep : Sweep} {w : σ} {n : Nat}

/-- What is kept are the counts of the first runs. -/
structure Reaches (store : Store) (files : σ → Files) (sweep : Sweep) (w : σ) (n : Nat) : Prop where
  load : ∃ kept, store.load (files w) = .ok kept
  le : n ≤ sweep.runs.length
  stored : ∀ key, store.stored (files w) key = occurrences (sweep.runs.take n) key

theorem reaches_zero (sweep : Sweep) (hload : store.load (files w) = .ok none) :
    Reaches store files sweep w 0 where
  load := ⟨none, hload⟩
  le := Nat.zero_le _
  stored _ := by
    rw [Store.stored, hload]
    rfl

theorem Reaches.le_length (h : Reaches store files sweep w n) {pre rest : List Run} {q : Run}
    (hruns : sweep.runs = pre ++ q :: rest)
    (hge : store.stored (files w) q.key ≤ occurrences pre q.key) : n ≤ pre.length := by
  have hp : pre ++ [q] <+: sweep.runs := ⟨rest, by rw [hruns, List.append_assoc]; rfl⟩
  have hdue := due_of_take hp h.stored
  rw [due_concat, if_pos hge] at hdue
  have hlt := congrArg List.length hdue
  rw [List.length_append, List.length_drop, List.length_append, List.length_singleton] at hlt
  omega

/-- What a session is seen to do that starts where the first runs have been done. -/
structure Resumes (sweep : Sweep) (n : Nat) (r : Report σ) (m : Nat) : Prop where
  ends : Ends (occurrences (sweep.runs.take n)) sweep.runs (sweep.runs.take m) r.result r.calls
  le : n ≤ m
  le_length : m ≤ sweep.runs.length
  kept : r.kept = ((sweep.runs.take m).drop n).map (·.assignment)
  call : ∀ {c : Nat} {call : Call}, r.calls[c]? = some call → ∃ q, sweep.runs[n + c]? = some q ∧
    call.assignment = q.assignment ∧
    (call.isSuccess → n + c < m ∨ ∃ e, call.saved? = some (.error e))
  finished : (∃ summary, r.result = .ok summary) → m = sweep.runs.length

/-- The calls for the due runs that were got past come first, in order. -/
theorem getElem?_calls {rs pre : List Run} {last : List Call} {c : Nat} {call : Call}
    (hp : pre <+: rs) (hn : n ≤ pre.length)
    (h : ((pre.drop n).map Call.kept ++ last)[c]? = some call) :
    (n + c < pre.length ∧ ∃ q, rs[n + c]? = some q ∧ call = .kept q) ∨
      ∃ k, n + c = pre.length + k ∧ last[k]? = some call := by
  have hlen : ((pre.drop n).map Call.kept).length = pre.length - n := by
    rw [List.length_map, List.length_drop]
  rcases Nat.lt_or_ge (n + c) pre.length with hlt | hge
  · rw [List.getElem?_append_left (by omega), List.getElem?_map, List.getElem?_drop] at h
    obtain ⟨q, hq, rfl⟩ := Option.map_eq_some_iff.mp h
    obtain ⟨rest, rfl⟩ := hp
    exact .inl ⟨hlt, q, by rwa [List.getElem?_append_left hlt], rfl⟩
  · rw [List.getElem?_append_right (by omega), hlen] at h
    exact .inr ⟨_, by omega, h⟩

theorem getElem?_calls_concat {rs pre rest : List Run} {q : Run} {last call : Call} {c : Nat}
    (hruns : rs = pre ++ q :: rest) (hn : n ≤ pre.length)
    (h : ((pre.drop n).map Call.kept ++ [last])[c]? = some call) :
    (n + c < pre.length ∧ ∃ q, rs[n + c]? = some q ∧ call = .kept q) ∨
      rs[n + c]? = some q ∧ call = last := by
  rcases getElem?_calls ⟨_, hruns.symm⟩ hn h with hkept | ⟨k, hk, hlast⟩
  · exact .inl hkept
  · rw [List.getElem?_singleton] at hlast
    split at hlast
    · next hzero =>
      refine .inr ⟨?_, (Option.some.inj hlast).symm⟩
      rw [hk, hzero, hruns, Nat.add_zero, List.getElem?_append_right (Nat.le_refl _), Nat.sub_self]
      rfl
    · cases hlast

theorem Outcome.resumes {pre : List Run} {r : Report σ}
    (hpre : Outcome store files host sweep w pre r) (h : Reaches store files sweep w n) :
    Resumes sweep n r pre.length := by
  have hp := hpre.ends.isPrefix
  have hdue : due (store.stored (files w)) pre = pre.drop n := due_of_take hp h.stored
  have hkept : r.kept = ((sweep.runs.take pre.length).drop n).map (·.assignment) := by
    rw [hpre.kept_eq, hdue, ← List.prefix_iff_eq_take.mp hp]
  have hends := hpre.ends
  have hresumes : Ends (occurrences (sweep.runs.take n)) sweep.runs
      (sweep.runs.take pre.length) r.result r.calls := by
    have hstored : store.stored (files w) = occurrences (sweep.runs.take n) := funext h.stored
    rw [← hstored, ← List.prefix_iff_eq_take.mp hp]
    exact hends
  obtain ⟨_, result, calls, _⟩ := r
  dsimp only at hends
  cases hends with
  | finished =>
    refine ⟨hresumes, h.le, Nat.le_refl _, hkept, ?_, fun _ => rfl⟩
    intro c call hc
    rw [hdue, ← List.append_nil (List.map _ _)] at hc
    rcases getElem?_calls hp h.le hc with ⟨hlt, q, hq, rfl⟩ | ⟨k, -, hk⟩
    · exact ⟨q, hq, rfl, fun _ => .inl hlt⟩
    · cases hk
  | @failed _ rest q reason hruns hge =>
    have hle := h.le_length hruns hge
    refine ⟨hresumes, hle, hp.length_le, hkept, ?_, fun ⟨_, hok⟩ => nomatch hok⟩
    intro c call hc
    rw [hdue] at hc
    rcases getElem?_calls_concat hruns hle hc with ⟨hlt, q, hq, rfl⟩ | ⟨hq, rfl⟩
    · exact ⟨q, hq, rfl, fun _ => .inl hlt⟩
    · exact ⟨q, hq, rfl, fun hs => nomatch hs⟩
  | @unsaved _ rest q e hruns hge =>
    have hle := h.le_length hruns hge
    refine ⟨hresumes, hle, hp.length_le, hkept, ?_, fun ⟨_, hok⟩ => nomatch hok⟩
    intro c call hc
    rw [hdue] at hc
    rcases getElem?_calls_concat hruns hle hc with ⟨hlt, q, hq, rfl⟩ | ⟨hq, rfl⟩
    · exact ⟨q, hq, rfl, fun _ => .inl hlt⟩
    · exact ⟨q, hq, rfl, fun _ => .inr ⟨e, rfl⟩⟩

theorem Reaches.report (hw : host.WorksOn store files) (h : Reaches store files sweep w n)
    (hn : sweep.runs.length < 2 ^ 64) :
    ∃ m, Resumes sweep n (report host sweep w) m ∧
      Reaches store files sweep (report host sweep w).world m := by
  obtain ⟨old, hload⟩ := h.load
  obtain ⟨pre, hpre⟩ := report_spec hw hload hn
  have hp := hpre.ends.isPrefix
  have hdue : due (store.stored (files w)) pre = pre.drop n := due_of_take hp h.stored
  have htake : sweep.runs.take pre.length = pre := (List.prefix_iff_eq_take.mp hp).symm
  have hr := hpre.resumes h
  have hle : sweep.runs.take n <+: pre :=
    List.prefix_of_prefix_length_le (List.take_prefix _ _) hp
      ((List.length_take_le _ _).trans hr.le)
  refine ⟨pre.length, hr, hpre.load hload, hp.length_le, ?_⟩
  intro key
  rw [hpre.stored, h.stored, htake]
  exact Nat.max_eq_right (occurrences_mono key hle)

/-- How many runs some sessions have done and kept. -/
def reached (rs : List (Report σ)) : Nat := (rs.flatMap Report.kept).length

def call? (rs : List (Report σ)) (i c : Nat) : Option Call := rs[i]?.bind fun r => r.calls[c]?

variable {rs : List (Report σ)} {r : Report σ} {m : Nat}

theorem reached_of_kept (hm : m ≤ sweep.runs.length)
    (h : rs.flatMap Report.kept = (sweep.runs.take m).map (·.assignment)) : reached rs = m := by
  rw [reached, h, List.length_map, List.length_take_of_le hm]

theorem Resumes.flatMap_kept (h : Resumes sweep n r m)
    (hrs : rs.flatMap Report.kept = (sweep.runs.take n).map (·.assignment)) :
    (rs ++ [r]).flatMap Report.kept = (sweep.runs.take m).map (·.assignment) := by
  have htake : sweep.runs.take n = (sweep.runs.take m).take n := by
    rw [List.take_take, Nat.min_eq_left h.le]
  rw [List.flatMap_append, List.flatMap_singleton, hrs, h.kept, htake, ← List.map_append,
    List.take_append_drop]

def attempts (hosts : List (Host σ)) (sweep : Sweep) (w : σ) : List (Report σ) :=
  reports (hosts.map (·, sweep)) w

theorem length_attempts (hosts : List (Host σ)) :
    (attempts hosts sweep w).length = hosts.length := by
  rw [attempts, length_reports, List.length_map]

theorem take_attempts (hosts : List (Host σ)) (i : Nat) :
    (attempts hosts sweep w).take i = attempts (hosts.take i) sweep w := by
  rw [attempts, take_reports, ← List.map_take]
  rfl

theorem attempts_concat (hosts : List (Host σ)) (host : Host σ) :
    attempts (hosts ++ [host]) sweep w = attempts hosts sweep w ++
      [report host sweep (worldAfter (attempts hosts sweep w) w)] := by
  rw [attempts, List.map_append]
  exact reports_concat _ _ w

theorem getElem?_attempts {hosts : List (Host σ)} {i : Nat}
    (h : (attempts hosts sweep w)[i]? = some r) : ∃ host ∈ hosts,
      r = report host sweep (worldAfter ((attempts hosts sweep w).take i) w) := by
  rw [attempts, getElem?_reports, List.getElem?_map, Option.map_map] at h
  obtain ⟨host, hhost, rfl⟩ := Option.map_eq_some_iff.mp h
  exact ⟨host, List.mem_of_getElem? hhost, rfl⟩

section Attempts

variable {hosts : List (Host σ)} (hw : ∀ host ∈ hosts, host.WorksOn store files)
  (hload : store.load (files w) = .ok none) (hn : sweep.runs.length < 2 ^ 64)

include hw hload hn

/-- What all sessions keep up: what they kept together are the first runs. -/
theorem reaches_attempts :
    Reaches store files sweep (worldAfter (attempts hosts sweep w) w)
      (reached (attempts hosts sweep w)) ∧
    (attempts hosts sweep w).flatMap Report.kept =
      (sweep.runs.take (reached (attempts hosts sweep w))).map (·.assignment) := by
  induction hosts using List.reverseRecOn with
  | nil => exact ⟨reaches_zero sweep hload, rfl⟩
  | append_singleton hosts host ih =>
    obtain ⟨hreach, hkept⟩ := ih fun host' h => hw host' (List.mem_append_left _ h)
    have hhost : host.WorksOn store files :=
      hw host (List.mem_append_right _ (List.mem_singleton_self host))
    obtain ⟨m, hresumes, hm⟩ := hreach.report hhost hn
    have hkept' := hresumes.flatMap_kept hkept
    rw [attempts_concat, worldAfter_concat, reached_of_kept hm.le hkept']
    exact ⟨hm, hkept'⟩

theorem reaches_take (i : Nat) :
    Reaches store files sweep (worldAfter ((attempts hosts sweep w).take i) w)
      (reached ((attempts hosts sweep w).take i)) ∧
    ((attempts hosts sweep w).take i).flatMap Report.kept =
      (sweep.runs.take (reached ((attempts hosts sweep w).take i))).map (·.assignment) := by
  rw [take_attempts]
  exact reaches_attempts (fun host h => hw host (List.mem_of_mem_take h)) hload hn

theorem resumes_getElem? {i : Nat} (hr : (attempts hosts sweep w)[i]? = some r) :
    Resumes sweep (reached ((attempts hosts sweep w).take i)) r
      (reached ((attempts hosts sweep w).take (i + 1))) := by
  obtain ⟨hreach, hkept⟩ := reaches_take hw hload hn i
  have hsucc : (attempts hosts sweep w).take (i + 1) = (attempts hosts sweep w).take i ++ [r] := by
    rw [List.take_add_one, hr]
    rfl
  rw [hsucc]
  obtain ⟨host, hhost, rfl⟩ := getElem?_attempts hr
  obtain ⟨m, hm, hreach'⟩ := hreach.report (hw host hhost) hn
  rw [reached_of_kept hreach'.le (hm.flatMap_kept hkept)]
  exact hm

end Attempts

/-- Sessions of one sweep, each of them broken off by its task or because progress could not be
kept, or finished, where nothing was kept at first. -/
theorem attempts_spec {hosts : List (Host σ)} (hw : ∀ host ∈ hosts, host.WorksOn store files)
    (hload : store.load (files w) = .ok none) (hn : sweep.runs.length < 2 ^ 64) :
    let rs := attempts hosts sweep w
    let done := fun i => reached (rs.take i)
    rs.length = hosts.length ∧ Monotone done ∧
    (∀ i, Reaches store files sweep (worldAfter (rs.take i) w) (done i)) ∧
    (∀ i r, rs[i]? = some r → Ends (occurrences (sweep.runs.take (done i))) sweep.runs
      (sweep.runs.take (done (i + 1))) r.result r.calls) ∧
    (∀ i c call, call? rs i c = some call →
      ∃ q, sweep.runs[done i + c]? = some q ∧ call.assignment = q.assignment) ∧
    (∀ i c i' c' call call', call? rs i c = some call → call? rs i' c' = some call' →
      i < i' ∨ i = i' ∧ c < c' → done i + c = done i' + c' → call.isSuccess →
      ∃ e, call.saved? = some (.error e)) ∧
    ∀ r summary, rs.getLast? = some r → r.result = .ok summary →
      rs.flatMap Report.kept = sweep.run (fun a collected => collected ++ [a]) [] := by
  intro rs done
  have hmono : Monotone done := by
    intro i j hij
    exact (List.IsPrefix.flatMap (List.take_prefix_take_left hij) Report.kept).length_le
  refine ⟨length_attempts hosts, hmono, fun i => (reaches_take hw hload hn i).1,
    fun i r hr => (resumes_getElem? hw hload hn hr).ends, ?_, ?_, ?_⟩
  · intro i c call hcall
    obtain ⟨r, hr, hc⟩ := Option.bind_eq_some_iff.mp hcall
    obtain ⟨q, hq, ha, -⟩ := (resumes_getElem? hw hload hn hr).call hc
    exact ⟨q, hq, ha⟩
  · intro i c i' c' call call' hcall hcall' horder hsame hsuccess
    obtain ⟨r, hr, hc⟩ := Option.bind_eq_some_iff.mp hcall
    obtain ⟨-, -, -, hkept⟩ := (resumes_getElem? hw hload hn hr).call hc
    rcases hkept hsuccess with hlt | herror
    · rcases horder with hi | ⟨rfl, hc'⟩
      · have hle : done (i + 1) ≤ done i' := hmono hi
        change done i + c < done (i + 1) at hlt
        omega
      · omega
    · exact herror
  · intro r summary hlast hok
    rw [List.getLast?_eq_getElem?] at hlast
    have hall : rs.take (rs.length - 1 + 1) = rs := List.take_of_length_le (by omega)
    have hfinished : done (rs.length - 1 + 1) = sweep.runs.length :=
      (resumes_getElem? hw hload hn hlast).finished ⟨summary, hok⟩
    obtain ⟨-, hkept⟩ := reaches_take hw hload hn (rs.length - 1 + 1)
    change (rs.take (rs.length - 1 + 1)).flatMap Report.kept =
      (sweep.runs.take (done (rs.length - 1 + 1))).map (·.assignment) at hkept
    rw [hfinished, hall, List.take_length] at hkept
    rw [hkept, Sweep.run_collect]

/-- The first session cannot keep its progress, the second one breaks off at its second call, and
the third one finishes. -/
theorem attempts_spec_of_refused :
    let store : Store := ⟨["progress.json"]⟩
    let now : Nat → Instant := fun _ => ⟨⟨2024, 2, 29⟩, 3600, 0⟩
    let task : Assignment → Nat → Except String Unit × Nat := fun _ n => (.ok (), n + 1)
    let stopped : Assignment → Nat → Except String Unit × Nat := fun _ n =>
      (if n = 2 then .error "stopped" else .ok (), n + 1)
    let refusing := (hostOf store now task).refusing fun _ _ => some (.io .busy)
    let hosts := [refusing, hostOf store now stopped, hostOf store now task]
    let sweep : Sweep := ⟨1, [], [⟨"x", [.int 1, .int 1, .int 2]⟩], []⟩
    let w : World Nat := ⟨.empty, 0⟩
    let rs := attempts hosts sweep w
    (∀ host ∈ hosts, host.WorksOn store World.files) ∧ store.load w.files = .ok none ∧
      sweep.runs.length < 2 ^ 64 ∧
      (∃ first second third summary, rs = [first, second, third] ∧
        first.result = .error (.store (.io .busy)) ∧
        second.calls.map Call.bare = [(.ofList [("x", .int 1)], .ok ()),
          (.ofList [("x", .int 1)], .error "stopped")] ∧
        third.result = .ok summary) ∧
      rs.flatMap Report.kept = sweep.run (fun a collected => collected ++ [a]) [] := by
  intro store now task stopped refusing hosts sweep w rs
  have hnow (t : Nat) : (now t).IsReal := ⟨by decide, by decide, by decide, by decide⟩
  have hload : store.load w.files = .ok none := Store.load_empty (by decide)
  have hready : store.Ready w.files := Store.ready_progress
  have hrefusing : refusing.WorksOn store World.files := (worksOn_hostOf store task hnow).refusing _
  have hw : ∀ host ∈ hosts, host.WorksOn store World.files := by
    simpa [hosts] using
      ⟨hrefusing, worksOn_hostOf store stopped hnow, worksOn_hostOf store task hnow⟩
  -- Nothing depends on what the keys are.
  obtain ⟨a, ha⟩ : ∃ a : Assignment, a = .ofList [("x", .int 1)] := ⟨_, rfl⟩
  have hruns : sweep.runs = [⟨0, 0, 1, a⟩, ⟨1, 0, 1, a⟩, ⟨2, 0, 1, .ofList [("x", .int 2)]⟩] := by
    rw [Sweep.runs_eq_flatMap, ha]
    rfl
  have hn : sweep.runs.length < 2 ^ 64 := by
    rw [hruns]
    show 3 < 2 ^ 64
    decide
  have hfirst : report refusing sweep w =
      ⟨sweep, .error (.store (.io .busy)), [.unsaved ⟨0, 0, 1, a⟩ (.io .busy)], ⟨.empty, 1⟩⟩ := by
    let p : Progress := .new sweep.fingerprint (now 0)
    have hbegin : begin refusing sweep.fingerprint w = .ok p :=
      begin_eq sweep.fingerprint hrefusing hload
    have hzero : p.done a.key = 0 := rfl
    have hroom : p.done a.key + 1 < 2 ^ 64 := by
      rw [hzero]
      decide
    obtain ⟨q, hrecord⟩ := Progress.exists_record hroom (now 0)
    have hunsaved : LoggedStep refusing ⟨p, .empty, ⟨0, 0⟩, (w, [])⟩ ⟨0, 0, 1, a⟩
        (.error (.store (.io .busy), ⟨.empty, 1⟩, [.unsaved ⟨0, 0, 1, a⟩ (.io .busy)])) :=
      .unsaved (Nat.le_of_eq hzero) rfl hrecord rfl
    rw [report_eq hbegin, hruns, List.foldlM_cons, hunsaved.eq]
    rfl
  -- So nothing is on record for the second session, which does what a run does.
  let w₁ : World Nat := ⟨.empty, 1⟩
  have htry : (sweep.tryRun (logTask stopped) (w₁.work, [])).2 = _ :=
    tryRun_eq_report hload hready hnow hn
  have hsecond := congrArg Prod.snd htry
  rw [Sweep.tryRun_eq, hruns, ha] at hsecond
  obtain ⟨houtcome, hne⟩ := report_hostOf stopped (w := w₁) ⟨none, hload⟩ hready hnow hn
  have htask (b : Assignment) (n : Nat) : (task b n).1 = .ok () := rfl
  obtain ⟨summary, hthird⟩ := report_of_task_ok htask (houtcome.load hload)
    (houtcome.ready hne hready) hnow hn
  have hrs : rs = [report refusing sweep w, report (hostOf store now stopped) sweep w₁,
      report (hostOf store now task) sweep (report (hostOf store now stopped) sweep w₁).world] := by
    show [_, _, _] = _
    rw [hfirst]
  obtain ⟨-, -, -, -, -, -, hall⟩ := attempts_spec hw hload hn
  refine ⟨hw, hload, hn, ⟨_, _, _, summary, hrs, ?_, hsecond.symm, hthird⟩,
    hall _ summary ?_ hthird⟩
  · rw [hfirst]
  · show rs.getLast? = _
    rw [hrs]
    rfl

end Session

end ParamSweep
