import ParamSweep.Proofs.Session.Resume
import ParamSweep.Proofs.Sweep.Rearranged

/-! # Sessions of rearranged sweeps

A session knows runs by the keys of their assignments and has no use for their order. So it
finds nothing to do after a session of a sweep with the same axes in another arrangement,
although the two have different fingerprints.
-/

namespace ParamSweep.Session

variable {τ : Type} {s t : Sweep}

theorem load_of_run_eq_ok {σ : Type} {store : Store} {files : σ → Files} {host : Host σ} {w w' : σ}
    {summary : Summary} (hw : host.WorksOn store files) (h : run host s w = (.ok summary, w')) :
    ∃ old, store.load (files w) = .ok old := by
  cases hload : store.load (files w) with
  | ok old => exact ⟨old, rfl⟩
  | error e =>
    have hbegin : begin host s.fingerprint w = .error e := by
      rw [begin, hw.loadOrNew, Store.loadOrNew, hload]
      rfl
    rw [run, hbegin] at h
    cases congrArg Prod.fst h

theorem occurrences_of_perm (h : (s.runs.map (·.assignment)).Perm (t.runs.map (·.assignment)))
    (key : String) : occurrences s.runs key = occurrences t.runs key := by
  have hkeys : (s.runs.map Run.key).Perm (t.runs.map Run.key) := by
    have hmap := h.map Assignment.key
    rwa [List.map_map, List.map_map] at hmap
  exact hkeys.count_eq key

/-- Rearranged sweeps pass on the same assignments equally often, and after a session of one has
finished, a session of the other with whatever task has nothing left to do. -/
theorem run_rearranged (h : s.Rearranged t) (hs : s.Reachable)
    (hp : s.sizes.prod ≤ 2 ^ 64 - 1) :
    (s.run (fun a collected => collected ++ [a]) []).Perm
        (t.run (fun a collected => collected ++ [a]) []) ∧
      ∀ {store : Store} {now now' : τ → Instant}
        {task task' : Assignment → τ → Except String Unit × τ} {w w₁ w' : World τ}
        {summary : Summary}, (∀ x, (now x).IsReal) → (∀ x, (now' x).IsReal) →
        s.runs.length < 2 ^ 64 → run (hostOf store now task) s w = (.ok summary, w₁) →
        w'.files = w₁.files →
        (report (hostOf store now' task') t w').calls = [] ∧
          (report (hostOf store now' task') t w').result = .ok ⟨0, t.runs.length⟩ := by
  have hperm := h.perm_runs hs hp
  have hlength : s.runs.length = t.runs.length := by simpa using hperm.length_eq
  constructor
  · rw [Sweep.run_collect, Sweep.run_collect]
    exact hperm
  · intro store now now' task task' w w₁ w' summary hnow hnow' hn hrun hfiles
    have hw := worksOn_hostOf store task hnow
    obtain ⟨old, hload⟩ := load_of_run_eq_ok hw hrun
    obtain ⟨pre, hpre⟩ := report_spec hw hload hn
    rw [run_eq_report] at hrun
    obtain ⟨hresult, hworld⟩ := Prod.mk.inj hrun
    -- The first session got past all runs of its sweep, so they are on record.
    have hne (e : StoreError) :
        (report (hostOf store now task) s w).result ≠ .error (.store e) := by
      rw [hresult]
      exact nofun
    have hall : s.runs = pre := by
      rw [← hpre.passed_eq hne, Report.passed, hresult, hpre.same]
    obtain ⟨new, hnew⟩ := hpre.load hload
    rw [hworld, ← hfiles] at hnew
    apply report_of_le (worksOn_hostOf store task' hnow') hnew (hlength ▸ hn)
    intro key
    rw [← occurrences_of_perm hperm, hfiles, ← hworld, hpre.stored, ← hall]
    exact Nat.le_max_right _ _

/-- The members of a bundle change places and a parameter gets a bundle to itself. After a session
of the one sweep the other has nothing left to do. -/
theorem run_rearranged_of_bundles :
    let x : Axis := ⟨"x", [.int 1, .int 2]⟩
    let y : Axis := ⟨"y", [.bool true]⟩
    let a : Axis := ⟨"a", [.int 1, .int 2]⟩
    let b : Axis := ⟨"b", [.string "u", .string "v"]⟩
    let s : Sweep := ⟨2, [], [x, y], [⟨[a, b]⟩]⟩
    let t : Sweep := ⟨2, [], [y], [⟨[b, a]⟩, ⟨[x]⟩]⟩
    let store : Store := ⟨["progress.json"]⟩
    let now : Nat → Instant := fun _ => ⟨⟨2024, 2, 29⟩, 3600, 0⟩
    let task : Assignment → Nat → Except String Unit × Nat := fun _ n => (.ok (), n + 1)
    let w : World Nat := ⟨.empty, 0⟩
    s.Rearranged t ∧ s.Reachable ∧ s.sizes.prod ≤ 2 ^ 64 - 1 ∧ (∀ x, (now x).IsReal) ∧
      s.runs.length < 2 ^ 64 ∧ ∃ summary w₁, run (hostOf store now task) s w = (.ok summary, w₁) ∧
        (report (hostOf store now task) t w₁).calls = [] ∧
        (report (hostOf store now task) t w₁).result = .ok ⟨0, 8⟩ := by
  intro x y a b s t store now task w
  have hswap : s.Rearranged ⟨2, [], [x, y], [⟨[b, a]⟩]⟩ :=
    .rel _ _ (.members (.cons (List.Perm.swap _ _ _) .nil))
  have hmove : Sweep.Rearranged ⟨2, [], [x, y], [⟨[b, a]⟩]⟩ t :=
    .rel _ _ (@Sweep.Rearranges.bundled _ [] [y] x rfl)
  have hst : s.Rearranged t := hswap.trans _ _ _ hmove
  have haxes : (Sweep.empty.setDefaultRepeats 2).setAxes [x, y] =
      (.ok (), ⟨2, [], [x, y], []⟩) := rfl
  have hbundle : Bundle.ofAxes [a, b] = .ok ⟨[a, b]⟩ := rfl
  have hs : s.Reachable :=
    .of_addBundle (.of_setAxes (.setDefaultRepeats 2 .empty) haxes) hbundle rfl
  have hp : s.sizes.prod ≤ 2 ^ 64 - 1 := by decide
  have hnow (x : Nat) : (now x).IsReal := ⟨by decide, by decide, by decide, by decide⟩
  have hn : s.runs.length < 2 ^ 64 := by
    rw [Sweep.runs_eq_flatMap]
    decide
  have hload : store.load w.files = .ok none := Store.load_empty (by decide)
  have hready : store.Ready w.files := Store.ready_progress
  have htask (a : Assignment) (n : Nat) : (task a n).1 = .ok () := rfl
  obtain ⟨summary, hsummary⟩ := report_of_task_ok htask ⟨none, hload⟩ hready hnow hn
  have hrun : run (hostOf store now task) s w =
      (.ok summary, (report (hostOf store now task) s w).world) := by
    rw [run_eq_report, hsummary]
  obtain ⟨-, hsecond⟩ := run_rearranged hst hs hp
  have hruns : t.runs.length = 8 := by
    rw [Sweep.runs_eq_flatMap]
    decide
  rw [hruns] at hsecond
  exact ⟨hst, hs, hp, hnow, hn, summary, _, hrun, hsecond hnow hnow hn hrun rfl⟩

end ParamSweep.Session
