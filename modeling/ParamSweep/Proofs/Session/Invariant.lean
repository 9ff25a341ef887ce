import ParamSweep.Proofs.Session.Counters
import ParamSweep.Proofs.Store

/-! # What a session keeps up

A session has two counters of each key, of the runs that it has seen and of the runs that
have finished. After some runs of the sweep the second is the larger one of what it was at
first and of the first counter. With it comes what has been called, what is kept and what
the session will report.
-/

namespace ParamSweep

variable {σ : Type}

/-- A host that keeps progress in a store. The files of the store are part of its states; the
task leaves them alone, and if progress cannot be kept, what was kept before stays. -/
structure Host.WorksOn (store : Store) (files : σ → Files) (host : Host σ) : Prop where
  loadOrNew : ∀ fingerprint w,
    host.loadOrNew fingerprint w = store.loadOrNew fingerprint (host.now w) (files w)
  now : ∀ w, (host.now w).IsReal
  task : ∀ a w result w', host.task a w = (result, w') → files w' = files w
  save : ∀ p w w', host.save p w = (.ok (), w') → store.save p (files w) = (.ok (), files w')
  save_error : ∀ p w e w', host.save p w = (.error e, w') →
    (files w').find store.path = (files w).find store.path

namespace Session

/-- What holds after some runs of a session that started from some progress. -/
structure Holds (store : Store) (files : σ → Files) (w₀ : σ) (p₀ : Progress) (pre : List Run)
    (s : State (σ × List Call)) : Prop where
  seen : ∀ key, (s.seen.get? key).getD 0 = occurrences pre key
  done : ∀ key, s.progress.done key = max (p₀.done key) (occurrences pre key)
  sound : s.progress.IsSound
  fingerprint : s.progress.fingerprint = p₀.fingerprint
  createdAt : s.progress.createdAt = p₀.createdAt
  executed : s.summary.executed = (due p₀.done pre).length
  skipped : s.summary.skipped = pre.length - (due p₀.done pre).length
  calls : s.world.2 = (due p₀.done pre).map .kept
  ready : store.Ready (files w₀) → store.Ready (files s.world.1)
  /-- Nothing is written before a run is done, ... -/
  idle : due p₀.done pre = [] → files s.world.1 = files w₀
  /-- ... and then the progress is kept. -/
  kept : due p₀.done pre ≠ [] → store.load (files s.world.1) = .ok (some s.progress)

variable {store : Store} {files : σ → Files} {host : Host σ} {w₀ : σ} {p₀ : Progress}
  {pre : List Run} {s s' : State (σ × List Call)} {r : Run}

theorem holds_nil (h : p₀.IsSound) :
    Holds store files w₀ p₀ [] ⟨p₀, .empty, ⟨0, 0⟩, (w₀, [])⟩ where
  seen _ := rfl
  done _ := (Nat.max_zero _).symm
  sound := h
  fingerprint := rfl
  createdAt := rfl
  executed := rfl
  skipped := rfl
  calls := rfl
  ready := id
  idle _ := rfl
  kept h := absurd rfl h

theorem Holds.counts (h : Holds store files w₀ p₀ pre s) : Counts p₀ pre s := by
  have hle := length_due_le p₀.done pre
  refine ⟨h.seen, h.done, ?_⟩
  rw [h.executed, h.skipped]
  omega

/-- A run is skipped if and only if it is not due. -/
theorem Holds.before_lt_iff (h : Holds store files w₀ p₀ pre s) (r : Run) :
    s.before r < s.progress.done r.key ↔ occurrences pre r.key < p₀.done r.key := by
  rw [h.counts.before, h.done]
  omega

theorem Holds.skip (h : Holds store files w₀ p₀ pre s)
    (hlt : occurrences pre r.key < p₀.done r.key) :
    Holds store files w₀ p₀ (pre ++ [r]) (s.skip r) := by
  have hdue : due p₀.done (pre ++ [r]) = due p₀.done pre := by
    rw [due_concat, if_neg (Nat.not_le_of_lt hlt), List.append_nil]
  have hle := length_due_le p₀.done pre
  have hcounts := h.counts.skip ((h.before_lt_iff r).mpr hlt)
  refine ⟨hcounts.seen, hcounts.done, h.sound, h.fingerprint, h.createdAt, ?_, ?_, ?_, h.ready,
    ?_, ?_⟩
  · rw [hdue]
    exact h.executed
  · rw [hdue, List.length_append, List.length_singleton]
    show s.summary.skipped + 1 = _
    rw [h.skipped]
    omega
  · rw [hdue]
    exact h.calls
  · rw [hdue]
    exact h.idle
  · rw [hdue]
    exact h.kept

theorem Holds.finish (hw : host.WorksOn store files) (h : Holds store files w₀ p₀ pre s)
    (hge : p₀.done r.key ≤ occurrences pre r.key) {p : Progress} {w w' : σ}
    (hrecord : s.progress.record r.key (host.now w) = .ok p)
    (hsave : host.save p w = (.ok (), w')) :
    Holds store files w₀ p₀ (pre ++ [r]) (s.finish r p (w', s.world.2 ++ [.kept r])) := by
  have hdue : due p₀.done (pre ++ [r]) = due p₀.done pre ++ [r] := by
    rw [due_concat, if_pos hge]
  have hne : due p₀.done (pre ++ [r]) ≠ [] := by simp [hdue]
  have hle := length_due_le p₀.done pre
  have hcounts := h.counts.finish
    (Nat.le_of_not_lt (mt (h.before_lt_iff r).mp (Nat.not_lt_of_le hge))) hrecord
    (w', s.world.2 ++ [.kept r])
  have hsound : p.IsSound := h.sound.record hrecord (hw.now w)
  -- The store was ready, as it kept the progress, so it has kept it and is ready again.
  have hstore := hw.save _ _ _ hsave
  obtain ⟨fs, hfs, hready, hfind⟩ := (Store.ready_of_save (congrArg Prod.fst hstore)).save p
  obtain rfl : files w' = fs := congrArg Prod.snd (hstore.symm.trans hfs)
  refine ⟨hcounts.seen, hcounts.done, hsound, ?_, ?_, ?_, ?_, ?_,
    fun _ => hready, fun he => absurd he hne, fun _ => Store.load_of_find hfind hsound⟩
  · exact (Progress.fingerprint_of_record hrecord).trans h.fingerprint
  · exact (Progress.createdAt_of_record hrecord).trans h.createdAt
  · rw [hdue, List.length_append]
    exact congrArg (· + 1) h.executed
  · rw [hdue, List.length_append, List.length_append, List.length_singleton]
    show s.summary.skipped = _
    rw [h.skipped]
    omega
  · rw [hdue, List.map_append, ← h.calls]
    rfl

theorem Holds.step (hw : host.WorksOn store files) (h : Holds store files w₀ p₀ pre s)
    (hs : step host.logged s r = .ok s') : Holds store files w₀ p₀ (pre ++ [r]) s' := by
  have hstep := step_logged host s r
  rw [hs] at hstep
  cases hstep with
  | skipped hlt => exact h.skip ((h.before_lt_iff r).mp hlt)
  | finished hge htask hrecord hsave =>
    refine h.finish hw ?_ hrecord hsave
    exact Nat.le_of_not_lt (mt (h.before_lt_iff r).mpr (Nat.not_lt_of_le hge))

theorem holds_of_foldlM (hw : host.WorksOn store files) (h₀ : p₀.IsSound)
    (hs : pre.foldlM (step host.logged) ⟨p₀, .empty, ⟨0, 0⟩, (w₀, [])⟩ = .ok s) :
    Holds store files w₀ p₀ pre s :=
  foldlM_induction (P := Holds store files w₀ p₀) (holds_nil h₀)
    (fun _ _ _ _ _ h hr => h.step hw hr) hs

end Session

end ParamSweep
