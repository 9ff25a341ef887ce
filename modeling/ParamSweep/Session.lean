import ParamSweep.Store
import ParamSweep.Sweep.Runs
import ParamSweep.Sweep.Shape

/-! # Sessions

A session runs a task for every run of a sweep that is not on record. Runs are told apart
by the key of their assignment and by how many runs with the same key the sweep had
before: a run is on record if more runs with its key have finished than came before it.
So a session takes up where an earlier one was broken off, and does what is new if the
sweep has changed in between. Progress is kept after each run.
-/

namespace ParamSweep

/-- What a session needs from outside, with states of the outside of type `σ`. -/
structure Host (σ : Type) where
  /-- The progress that is kept, or new progress under a fingerprint. -/
  loadOrNew : String → σ → Except StoreError Progress
  /-- Keeps progress, or fails. -/
  save : Progress → σ → Except StoreError Unit × σ
  now : σ → Instant
  /-- Does the work of a run, or fails with a reason. -/
  task : Assignment → σ → Except String Unit × σ

/-- How many runs a session did and how many were on record. -/
structure Summary where
  executed : Nat
  skipped : Nat
  deriving DecidableEq, Repr

/-- Why a session ends early. -/
inductive SessionError
  | store (e : StoreError)
  /-- The task failed on a run. -/
  | task (combination repetition : Nat) (reason : String)
  /-- A run that was done could not be put on record. -/
  | count (e : CountError)
  deriving DecidableEq, Repr

def SessionError.message : SessionError → String
  | .store e => "Checkpoint error: " ++ e.message
  | .task combination repetition reason =>
    "Run failed at combination " ++ toString combination ++ ", repeat " ++ toString repetition ++
      ": " ++ reason
  | .count e => e.message

namespace Session

/-- A session under way. -/
structure State (σ : Type) where
  progress : Progress
  /-- How many runs the sweep has had, by their keys. -/
  seen : NameMap Nat
  summary : Summary
  world : σ

variable {σ : Type}

/-- One run: it is skipped if it is on record, and else done and put on record. -/
def step (host : Host σ) (s : State σ) (r : Run) : Except (SessionError × σ) (State σ) :=
  let key := r.assignment.key
  let before := (s.seen.get? key).getD 0
  let seen := s.seen.insert key (before + 1)
  if before < (s.progress.count key).toNat then
    .ok { s with seen, summary := { s.summary with skipped := s.summary.skipped + 1 } }
  else
    match host.task r.assignment s.world with
    | (.error reason, world) => .error (.task r.combination r.repetition reason, world)
    | (.ok (), world) =>
      match s.progress.record key (host.now world) with
      | .error e => .error (.count e, world)
      | .ok progress =>
        match host.save progress world with
        | (.error e, world) => .error (.store e, world)
        | (.ok (), world) =>
          .ok ⟨progress, seen, { s.summary with executed := s.summary.executed + 1 }, world⟩

/-- The progress to start from, now under the fingerprint of the sweep at work. -/
def begin (host : Host σ) (fingerprint : String) (world : σ) : Except StoreError Progress := do
  return { ← host.loadOrNew fingerprint world with fingerprint }

/-- Does the runs of a sweep that are not on record. -/
def run (host : Host σ) (sweep : Sweep) (world : σ) : Except SessionError Summary × σ :=
  match begin host sweep.fingerprint world with
  | .error e => (.error (.store e), world)
  | .ok progress =>
    match sweep.walk (step host) ⟨progress, .empty, ⟨0, 0⟩, world⟩ with
    | .ok s => (.ok s.summary, s.world)
    | .error (e, world) => (.error e, world)

/-- A tree of files beside the state of a task. -/
structure World (τ : Type) where
  files : Files
  work : τ

/-- The host that keeps progress in a store. -/
def hostOf {τ : Type} (store : Store) (now : τ → Instant)
    (task : Assignment → τ → Except String Unit × τ) : Host (World τ) where
  loadOrNew fingerprint w := store.loadOrNew fingerprint (now w.work) w.files
  save p w :=
    let (result, files) := store.save p w.files
    (result, { w with files })
  now w := now w.work
  task a w :=
    let (result, work) := task a w.work
    (result, { w with work })

end Session

end ParamSweep
