import ParamSweep.Proofs.Progress
import ParamSweep.Proofs.Session.Due
import ParamSweep.Proofs.Sweep.Walk

/-! # What is seen of a session

The calls of the task are logged together with what came of them. The log is kept beside
the world, and a session goes the same way whether or not its calls are logged.
-/

namespace ParamSweep

structure Call where
  assignment : Assignment
  result : Except String Unit
  /-- Whether progress could be kept after the call, if that was tried. -/
  saved? : Option (Except StoreError Unit)

namespace Call

/-- A call that succeeded, after which progress was kept. -/
def kept (r : Run) : Call := ⟨r.assignment, .ok (), some (.ok ())⟩

/-- A call that succeeded, after which progress could not be kept. -/
def unsaved (r : Run) (e : StoreError) : Call := ⟨r.assignment, .ok (), some (.error e)⟩

def failed (r : Run) (reason : String) : Call := ⟨r.assignment, .error reason, none⟩

/-- A call that succeeded, but could not be put on record. -/
def uncounted (r : Run) : Call := ⟨r.assignment, .ok (), none⟩

def isSuccess (c : Call) : Bool := c.result matches .ok ()

def isKept (c : Call) : Bool := c.isSuccess && c.saved? matches some (.ok ())

def note (result : Except StoreError Unit) (calls : List Call) : List Call :=
  match calls.getLast? with
  | some c => calls.dropLast ++ [{ c with saved? := some result }]
  | none => calls

theorem note_concat (result : Except StoreError Unit) (calls : List Call) (c : Call) :
    note result (calls ++ [c]) = calls ++ [{ c with saved? := some result }] := by
  rw [note, List.getLast?_concat, List.dropLast_concat]

end Call

variable {σ : Type}

/-- A host that logs the calls of its task. -/
def Host.logged (host : Host σ) : Host (σ × List Call) where
  loadOrNew fingerprint w := host.loadOrNew fingerprint w.1
  save p w :=
    let (result, world) := host.save p w.1
    (result, world, Call.note result w.2)
  now w := host.now w.1
  task a w :=
    let (result, world) := host.task a w.1
    (result, world, w.2 ++ [⟨a, result, none⟩])

theorem Host.logged_task {host : Host σ} {a : Assignment} {result : Except String Unit}
    {w : σ × List Call} {w' : σ} (h : host.task a w.1 = (result, w')) :
    host.logged.task a w = (result, w', w.2 ++ [⟨a, result, none⟩]) := by
  show ((host.task a w.1).1, (host.task a w.1).2, w.2 ++ [⟨a, (host.task a w.1).1, none⟩]) = _
  rw [h]

theorem Host.logged_save {host : Host σ} {p : Progress} {result : Except StoreError Unit}
    {w : σ × List Call} {w' : σ} (h : host.save p w.1 = (result, w')) :
    host.logged.save p w = (result, w', Call.note result w.2) := by
  show ((host.save p w.1).1, (host.save p w.1).2, Call.note (host.save p w.1).1 w.2) = _
  rw [h]

namespace Session

structure Report (σ : Type) where
  sweep : Sweep
  result : Except SessionError Summary
  calls : List Call
  world : σ

namespace Report

def successes (r : Report σ) : List Assignment := (r.calls.filter Call.isSuccess).map (·.assignment)

/-- The assignments of the calls that succeeded, and after which progress was kept. -/
def kept (r : Report σ) : List Assignment := (r.calls.filter Call.isKept).map (·.assignment)

/-- The runs that the session got past, by its result: all, or those before the run on which the
task failed. -/
def passed (r : Report σ) : List Run :=
  match r.result with
  | .ok _ => r.sweep.runs
  | .error (.task combination repetition _) =>
    r.sweep.runs.takeWhile fun q => (q.combination, q.repetition) != (combination, repetition)
  | .error (.store _) | .error (.count _) => []

end Report

def report (host : Host σ) (sweep : Sweep) (world : σ) : Report σ :=
  let (result, world, calls) := run host.logged sweep (world, [])
  ⟨sweep, result, calls, world⟩

def reports : List (Host σ × Sweep) → σ → List (Report σ)
  | [], _ => []
  | (host, sweep) :: sessions, world =>
    let r := report host sweep world
    r :: reports sessions r.world

def worldAfter (rs : List (Report σ)) (world : σ) : σ := (rs.getLast?.map (·.world)).getD world

/-! ### Sessions one after another -/

theorem worldAfter_cons (r : Report σ) (rs : List (Report σ)) (w : σ) :
    worldAfter (r :: rs) w = worldAfter rs r.world := by
  rw [worldAfter, worldAfter, List.getLast?_cons, Option.map_some, Option.getD_some]
  cases rs.getLast? <;> rfl

theorem worldAfter_concat (rs : List (Report σ)) (r : Report σ) (w : σ) :
    worldAfter (rs ++ [r]) w = r.world := by
  rw [worldAfter, List.getLast?_concat]
  rfl

theorem reports_concat (sessions : List (Host σ × Sweep)) (session : Host σ × Sweep) (w : σ) :
    reports (sessions ++ [session]) w = reports sessions w ++
      [report session.1 session.2 (worldAfter (reports sessions w) w)] := by
  induction sessions generalizing w with
  | nil => rfl
  | cons s sessions ih =>
    rw [List.cons_append, reports, ih, reports, worldAfter_cons]
    rfl

theorem length_reports (sessions : List (Host σ × Sweep)) (w : σ) :
    (reports sessions w).length = sessions.length := by
  induction sessions generalizing w with
  | nil => rfl
  | cons s sessions ih => exact congrArg (· + 1) (ih _)

theorem take_reports (sessions : List (Host σ × Sweep)) (i : Nat) (w : σ) :
    (reports sessions w).take i = reports (sessions.take i) w := by
  induction sessions generalizing i w with
  | nil => rw [List.take_nil, reports, List.take_nil]
  | cons s sessions ih =>
    cases i with
    | zero => rfl
    | succ i => exact congrArg (report s.1 s.2 w :: ·) (ih i _)

theorem getElem?_reports (sessions : List (Host σ × Sweep)) (i : Nat) (w : σ) :
    (reports sessions w)[i]? = sessions[i]?.map fun s =>
      report s.1 s.2 (worldAfter ((reports sessions w).take i) w) := by
  induction sessions generalizing i w with
  | nil => rfl
  | cons s sessions ih =>
    cases i with
    | zero => rfl
    | succ i =>
      rw [reports, List.getElem?_cons_succ, ih, List.getElem?_cons_succ, List.take_succ_cons,
        worldAfter_cons]

/-! ### Steps -/

namespace State

/-- How many runs with the key of a run came before it. -/
def before (s : State σ) (r : Run) : Nat := (s.seen.get? r.assignment.key).getD 0

def skip (s : State σ) (r : Run) : State σ :=
  { s with
    seen := s.seen.insert r.assignment.key (s.before r + 1)
    summary := { s.summary with skipped := s.summary.skipped + 1 } }

def finish (s : State σ) (r : Run) (progress : Progress) (world : σ) : State σ where
  progress := progress
  seen := s.seen.insert r.assignment.key (s.before r + 1)
  summary := { s.summary with executed := s.summary.executed + 1 }
  world := world

end State

/-- What a step can do. -/
inductive Step (host : Host σ) (s : State σ) (r : Run) :
    Except (SessionError × σ) (State σ) → Prop
  | skipped (hlt : s.before r < s.progress.done r.key) : Step host s r (.ok (s.skip r))
  | failed {reason : String} {w : σ} (hge : s.progress.done r.key ≤ s.before r)
      (htask : host.task r.assignment s.world = (.error reason, w)) :
      Step host s r (.error (.task r.combination r.repetition reason, w))
  | uncounted {e : CountError} {w : σ} (hge : s.progress.done r.key ≤ s.before r)
      (htask : host.task r.assignment s.world = (.ok (), w))
      (hrecord : s.progress.record r.key (host.now w) = .error e) :
      Step host s r (.error (.count e, w))
  | unsaved {p : Progress} {e : StoreError} {w w' : σ} (hge : s.progress.done r.key ≤ s.before r)
      (htask : host.task r.assignment s.world = (.ok (), w))
      (hrecord : s.progress.record r.key (host.now w) = .ok p)
      (hsave : host.save p w = (.error e, w')) : Step host s r (.error (.store e, w'))
  | finished {p : Progress} {w w' : σ} (hge : s.progress.done r.key ≤ s.before r)
      (htask : host.task r.assignment s.world = (.ok (), w))
      (hrecord : s.progress.record r.key (host.now w) = .ok p)
      (hsave : host.save p w = (.ok (), w')) : Step host s r (.ok (s.finish r p w'))

variable {host : Host σ}

theorem step_spec (host : Host σ) (s : State σ) (r : Run) : Step host s r (step host s r) := by
  rw [step]
  dsimp only
  split
  · next hlt => exact .skipped hlt
  · next hlt =>
    have hge : s.progress.done r.key ≤ s.before r := Nat.le_of_not_lt hlt
    split
    · next htask => exact .failed hge htask
    · next htask =>
      split
      · next hrecord => exact .uncounted hge htask hrecord
      · next hrecord =>
        split
        · next hsave => exact .unsaved hge htask hrecord hsave
        · next hsave => exact .finished hge htask hrecord hsave

theorem Step.eq {s : State σ} {r : Run} {x : Except (SessionError × σ) (State σ)}
    (h : Step host s r x) : step host s r = x := by
  have hnot (hge : s.progress.done r.key ≤ s.before r) :
      ¬ (s.seen.get? r.assignment.key).getD 0 < (s.progress.count r.assignment.key).toNat :=
    Nat.not_lt_of_le hge
  rw [step]
  cases h with
  | skipped hlt => exact if_pos hlt
  | failed hge htask => rw [if_neg (hnot hge), htask]
  | uncounted hge htask hrecord =>
    rw [if_neg (hnot hge), htask]
    dsimp only
    rw [← Run.key, hrecord]
  | unsaved hge htask hrecord hsave =>
    rw [if_neg (hnot hge), htask]
    dsimp only
    rw [← Run.key, hrecord]
    dsimp only
    rw [hsave]
  | finished hge htask hrecord hsave =>
    rw [if_neg (hnot hge), htask]
    dsimp only
    rw [← Run.key, hrecord]
    dsimp only
    rw [hsave]
    rfl

/-! ### Logging changes nothing -/

/-- What a step can do whose call is logged. -/
inductive LoggedStep (host : Host σ) (s : State (σ × List Call)) (r : Run) :
    Except (SessionError × σ × List Call) (State (σ × List Call)) → Prop
  | skipped (hlt : s.before r < s.progress.done r.key) : LoggedStep host s r (.ok (s.skip r))
  | failed {reason : String} {w : σ} (hge : s.progress.done r.key ≤ s.before r)
      (htask : host.task r.assignment s.world.1 = (.error reason, w)) :
      LoggedStep host s r (.error (.task r.combination r.repetition reason,
        w, s.world.2 ++ [.failed r reason]))
  | uncounted {e : CountError} {w : σ} (hge : s.progress.done r.key ≤ s.before r)
      (htask : host.task r.assignment s.world.1 = (.ok (), w))
      (hrecord : s.progress.record r.key (host.now w) = .error e) :
      LoggedStep host s r (.error (.count e, w, s.world.2 ++ [.uncounted r]))
  | unsaved {p : Progress} {e : StoreError} {w w' : σ} (hge : s.progress.done r.key ≤ s.before r)
      (htask : host.task r.assignment s.world.1 = (.ok (), w))
      (hrecord : s.progress.record r.key (host.now w) = .ok p)
      (hsave : host.save p w = (.error e, w')) :
      LoggedStep host s r (.error (.store e, w', s.world.2 ++ [.unsaved r e]))
  | finished {p : Progress} {w w' : σ} (hge : s.progress.done r.key ≤ s.before r)
      (htask : host.task r.assignment s.world.1 = (.ok (), w))
      (hrecord : s.progress.record r.key (host.now w) = .ok p)
      (hsave : host.save p w = (.ok (), w')) :
      LoggedStep host s r (.ok (s.finish r p (w', s.world.2 ++ [.kept r])))

def State.erase (s : State (σ × List Call)) : State σ where
  progress := s.progress
  seen := s.seen
  summary := s.summary
  world := s.world.1

def erased : Except (SessionError × σ × List Call) (State (σ × List Call)) →
    Except (SessionError × σ) (State σ)
  | .ok s => .ok s.erase
  | .error (e, w) => .error (e, w.1)

section Logged

variable {s : State (σ × List Call)} {r : Run}
  {x : Except (SessionError × σ × List Call) (State (σ × List Call))}

theorem LoggedStep.erase (h : LoggedStep host s r x) : Step host s.erase r (erased x) := by
  cases h with
  | skipped hlt => exact .skipped hlt
  | failed hge htask => exact .failed hge htask
  | uncounted hge htask hrecord => exact .uncounted hge htask hrecord
  | unsaved hge htask hrecord hsave => exact .unsaved hge htask hrecord hsave
  | finished hge htask hrecord hsave => exact .finished hge htask hrecord hsave

theorem LoggedStep.eq (h : LoggedStep host s r x) : step host.logged s r = x := by
  have hnote {p : Progress} {result : Except StoreError Unit} {w w' : σ}
      (hsave : host.save p w = (result, w')) : host.logged.save p
        (w, s.world.2 ++ [⟨r.assignment, .ok (), none⟩]) =
          (result, w', s.world.2 ++ [⟨r.assignment, .ok (), some result⟩]) := by
    rw [Host.logged_save hsave, Call.note_concat]
  cases h with
  | skipped hlt => exact (Step.skipped hlt).eq
  | failed hge htask => exact (Step.failed hge (Host.logged_task htask)).eq
  | uncounted hge htask hrecord =>
    exact (Step.uncounted hge (Host.logged_task htask) hrecord).eq
  | unsaved hge htask hrecord hsave =>
    exact (Step.unsaved hge (Host.logged_task htask) hrecord (hnote hsave)).eq
  | finished hge htask hrecord hsave =>
    exact (Step.finished hge (Host.logged_task htask) hrecord (hnote hsave)).eq

theorem step_logged (host : Host σ) (s : State (σ × List Call)) (r : Run) :
    LoggedStep host s r (step host.logged s r) := by
  have hex : ∃ x, LoggedStep host s r x := by
    have hstep := step_spec host s.erase r
    generalize step host s.erase r = y at hstep
    cases hstep with
    | skipped hlt => exact ⟨_, .skipped hlt⟩
    | failed hge htask => exact ⟨_, .failed hge htask⟩
    | uncounted hge htask hrecord => exact ⟨_, .uncounted hge htask hrecord⟩
    | unsaved hge htask hrecord hsave => exact ⟨_, .unsaved hge htask hrecord hsave⟩
    | finished hge htask hrecord hsave => exact ⟨_, .finished hge htask hrecord hsave⟩
  obtain ⟨x, hx⟩ := hex
  rwa [hx.eq]

theorem step_erase (s : State (σ × List Call)) (r : Run) :
    step host s.erase r = erased (step host.logged s r) :=
  (step_logged host s r).erase.eq

theorem foldlM_step_erase (rs : List Run) (s : State (σ × List Call)) :
    rs.foldlM (step host) s.erase = erased (rs.foldlM (step host.logged) s) := by
  induction rs generalizing s with
  | nil => rfl
  | cons r rs ih =>
    rw [List.foldlM_cons, List.foldlM_cons, step_erase]
    cases step host.logged s r with
    | ok s' => exact ih s'
    | error e => rfl

end Logged

/-- A session does the same if its calls are logged. -/
theorem run_eq_report (host : Host σ) (sweep : Sweep) (w : σ) :
    run host sweep w = ((report host sweep w).result, (report host sweep w).world) := by
  have hbegin : begin host.logged sweep.fingerprint (w, []) = begin host sweep.fingerprint w := rfl
  rw [report, run, run, hbegin]
  cases begin host sweep.fingerprint w with
  | error e => rfl
  | ok progress =>
    dsimp only
    have hfold : sweep.runs.foldlM (step host) ⟨progress, .empty, ⟨0, 0⟩, w⟩ = _ :=
      foldlM_step_erase sweep.runs ⟨progress, .empty, ⟨0, 0⟩, (w, [])⟩
    rw [Sweep.walk_eq_foldlM, Sweep.walk_eq_foldlM, hfold]
    cases sweep.runs.foldlM (step host.logged) ⟨progress, .empty, ⟨0, 0⟩, (w, [])⟩ <;> rfl

end Session

end ParamSweep
