import ParamSweep.Proofs.Session.Report

/-! # Counters of a session

A session counts the runs of each key that it has seen, those of each key on record, and those that
it did and skipped. Only a run of which fewer are on record than have been seen is put on record, so
that no counter gets beyond the number of runs, whatever was on record before.
-/

namespace ParamSweep.Session

variable {σ : Type} {host : Host σ} {sweep : Sweep} {w : σ} {p₀ : Progress} {pre : List Run}
  {s s' : State σ} {r : Run}

/-- What the counters are after some runs of a session that started from some progress. -/
structure Counts (p₀ : Progress) (pre : List Run) (s : State σ) : Prop where
  seen : ∀ key, (s.seen.get? key).getD 0 = occurrences pre key
  done : ∀ key, s.progress.done key = max (p₀.done key) (occurrences pre key)
  total : s.summary.executed + s.summary.skipped = pre.length

theorem counts_nil (p₀ : Progress) (w : σ) : Counts p₀ [] ⟨p₀, .empty, ⟨0, 0⟩, w⟩ :=
  ⟨fun _ => rfl, fun _ => (Nat.max_zero _).symm, rfl⟩

theorem Counts.before (h : Counts p₀ pre s) (r : Run) : s.before r = occurrences pre r.key :=
  h.seen r.key

theorem Counts.seen_insert (h : Counts p₀ pre s) (r : Run) (key : String) :
    ((s.seen.insert r.key (s.before r + 1)).get? key).getD 0 = occurrences (pre ++ [r]) key := by
  rw [NameMap.get?_insert, occurrences_concat, h.before]
  by_cases hk : key = r.key
  · rw [if_pos hk, if_pos hk.symm, hk]
    rfl
  · rw [if_neg hk, if_neg (Ne.symm hk), h.seen]
    rfl

theorem Counts.skip (h : Counts p₀ pre s) (hlt : s.before r < s.progress.done r.key) :
    Counts p₀ (pre ++ [r]) (s.skip r) := by
  rw [h.before, h.done] at hlt
  refine ⟨h.seen_insert r, fun key => ?_, ?_⟩
  · show s.progress.done key = _
    rw [h.done, occurrences_concat]
    by_cases hk : r.key = key
    · subst hk
      rw [if_pos rfl]
      omega
    · rw [if_neg hk]
      rfl
  · rw [List.length_append, List.length_singleton, ← h.total]
    rfl

theorem Counts.done_eq (h : Counts p₀ pre s) (hge : s.progress.done r.key ≤ s.before r) :
    s.progress.done r.key = occurrences pre r.key := by
  rw [h.before] at hge
  rw [h.done] at hge ⊢
  omega

theorem Counts.finish (h : Counts p₀ pre s) (hge : s.progress.done r.key ≤ s.before r)
    {now : Instant} {p : Progress} (hrecord : s.progress.record r.key now = .ok p) (w : σ) :
    Counts p₀ (pre ++ [r]) (s.finish r p w) := by
  have hdone := h.done_eq hge
  refine ⟨h.seen_insert r, fun key => ?_, ?_⟩
  · show p.done key = _
    rw [Progress.done_of_record hrecord, occurrences_concat, h.done key]
    by_cases hk : key = r.key
    · subst hk
      rw [if_pos rfl, if_pos rfl, hdone]
      have := h.done r.key
      omega
    · rw [if_neg hk, if_neg (Ne.symm hk)]
      rfl
  · rw [List.length_append, List.length_singleton, ← h.total]
    show s.summary.executed + 1 + s.summary.skipped = _
    omega

theorem Counts.step (h : Counts p₀ pre s) (hs : step host s r = .ok s') :
    Counts p₀ (pre ++ [r]) s' := by
  have hstep := step_spec host s r
  rw [hs] at hstep
  cases hstep with
  | skipped hlt => exact h.skip hlt
  | finished hge _ hrecord _ => exact h.finish hge hrecord _

theorem counts_of_foldlM (hs : pre.foldlM (step host) ⟨p₀, .empty, ⟨0, 0⟩, w⟩ = .ok s) :
    Counts p₀ pre s :=
  foldlM_induction (P := Counts p₀) (counts_nil p₀ w) (fun _ _ _ _ _ h hr => h.step hr) hs

/-! ### Room in 64 bits -/

/-- A session that started from some progress has got past the first runs of its sweep. -/
structure Passes (host : Host σ) (sweep : Sweep) (w : σ) (p₀ : Progress) (pre : List Run)
    (s : State σ) : Prop where
  begins : begin host sweep.fingerprint w = .ok p₀
  isPrefix : pre <+: sweep.runs
  steps : pre.foldlM (step host) ⟨p₀, .empty, ⟨0, 0⟩, w⟩ = .ok s

/-- Whatever the next run adds to a counter, 64 bits are enough for it. -/
structure State.HasRoom (s : State σ) (r : Run) : Prop where
  seen : s.before r + 1 < 2 ^ 64
  executed : s.summary.executed + 1 < 2 ^ 64
  skipped : s.summary.skipped + 1 < 2 ^ 64
  recorded : ¬ s.before r < s.progress.done r.key → s.progress.done r.key + 1 < 2 ^ 64 ∧
    ∀ now, ∃ p, s.progress.record r.key now = .ok p ∧
      ∀ key, p.done key = s.progress.done key + if key = r.key then 1 else 0

theorem Passes.counts (h : Passes host sweep w p₀ pre s) : Counts p₀ pre s :=
  counts_of_foldlM h.steps

theorem Counts.hasRoom (h : Counts p₀ pre s) (hn : pre.length + 1 < 2 ^ 64) (r : Run) :
    s.HasRoom r := by
  have hocc := occurrences_le_length pre r.key
  have htotal := h.total
  refine ⟨by rw [h.before]; omega, by omega, by omega, fun hge => ?_⟩
  have hdone := h.done_eq (Nat.le_of_not_lt hge)
  have hroom : s.progress.done r.key + 1 < 2 ^ 64 := by omega
  refine ⟨hroom, fun now => ?_⟩
  obtain ⟨p, hp⟩ := Progress.exists_record hroom now
  refine ⟨p, hp, fun key => ?_⟩
  rw [Progress.done_of_record hp]
  split
  · next hk => rw [hk]
  · rfl

theorem State.HasRoom.ne_count (h : s.HasRoom r) {e : CountError} {w : σ} :
    Session.step host s r ≠ .error (.count e, w) := by
  intro hs
  have hstep := step_spec host s r
  rw [hs] at hstep
  cases hstep with
  | uncounted hge _ hrecord =>
    obtain ⟨p, hp, -⟩ := (h.recorded (Nat.not_lt_of_le hge)).2 (host.now w)
    cases hp.symm.trans hrecord

/-- A session cannot begin, or gets past all runs, or fails on the run after those it got past. -/
theorem run_cases (host : Host σ) (sweep : Sweep) (w : σ) :
    (∃ e, begin host sweep.fingerprint w = .error e ∧
      run host sweep w = (.error (.store e), w)) ∨
    (∃ p₀ s, Passes host sweep w p₀ sweep.runs s ∧
      run host sweep w = (.ok s.summary, s.world)) ∨
    ∃ p₀ pre s r e w', Passes host sweep w p₀ pre s ∧ pre ++ [r] <+: sweep.runs ∧
      step host s r = .error (e, w') ∧ run host sweep w = (.error e, w') := by
  cases hb : begin host sweep.fingerprint w with
  | error e =>
    refine .inl ⟨e, rfl, ?_⟩
    rw [run, hb]
  | ok p₀ =>
    have hwalk := sweep.walk_eq_foldlM (step host) ⟨p₀, .empty, ⟨0, 0⟩, w⟩
    cases hs : sweep.runs.foldlM (step host) ⟨p₀, .empty, ⟨0, 0⟩, w⟩ with
    | ok s =>
      refine .inr (.inl ⟨p₀, s, ⟨hb, List.prefix_rfl, hs⟩, ?_⟩)
      simp only [run, hb, hwalk, hs]
    | error x =>
      obtain ⟨e, w'⟩ := x
      obtain ⟨pre, r, rest, s, hruns, hpre, hr⟩ := foldlM_eq_error hs
      have hp : pre ++ [r] <+: sweep.runs := ⟨rest, by rw [hruns, List.append_assoc]; rfl⟩
      refine .inr (.inr ⟨p₀, pre, s, r, e, w', ⟨hb, (List.prefix_append _ _).trans hp, hpre⟩, hp,
        hr, ?_⟩)
      simp only [run, hb, hwalk, hs]

theorem Passes.hasRoom (h : Passes host sweep w p₀ pre s) (hp : pre ++ [r] <+: sweep.runs)
    (hn : sweep.runs.length < 2 ^ 64) : s.HasRoom r := by
  have hlen := hp.length_le
  rw [List.length_append, List.length_singleton] at hlen
  exact h.counts.hasRoom (Nat.lt_of_le_of_lt hlen hn) r

theorem run_ne_count (hn : sweep.runs.length < 2 ^ 64) (e : CountError) :
    (run host sweep w).1 ≠ .error (.count e) := by
  rcases run_cases host sweep w with ⟨_, -, h⟩ | ⟨_, _, -, h⟩ | ⟨_, _, _, _, _, _, hs, hp, hr, h⟩
  · rw [h]
    nofun
  · rw [h]
    nofun
  · rw [h]
    rintro ⟨⟩
    exact (hs.hasRoom hp hn).ne_count hr

/-- Whatever progress a session starts from and whatever its task does, no counter gets beyond 64
bits, no count that was on record gets smaller, and the session is not broken off for a count. -/
theorem counters_fit (host : Host σ) (w : σ) (hn : sweep.runs.length < 2 ^ 64) :
    (∀ p₀ pre s r, Passes host sweep w p₀ pre s → pre ++ [r] <+: sweep.runs → s.HasRoom r) ∧
    (∀ p₀ pre s, Passes host sweep w p₀ pre s →
      s.summary.executed + s.summary.skipped = pre.length ∧
      ∀ key, s.progress.done key = max (p₀.done key) (occurrences pre key)) ∧
    (∀ e, (run host sweep w).1 ≠ .error (.count e)) ∧
    ((∃ e, begin host sweep.fingerprint w = .error e ∧
        run host sweep w = (.error (.store e), w)) ∨
      (∃ p₀ s, Passes host sweep w p₀ sweep.runs s ∧
        run host sweep w = (.ok s.summary, s.world)) ∨
      ∃ p₀ pre s r e w', Passes host sweep w p₀ pre s ∧ pre ++ [r] <+: sweep.runs ∧
        step host s r = .error (e, w') ∧ run host sweep w = (.error e, w')) := by
  exact ⟨fun p₀ pre s r h hp => h.hasRoom hp hn,
    fun p₀ pre s h => ⟨h.counts.total, h.counts.done⟩, run_ne_count hn, run_cases host sweep w⟩

/-- An assignment that is asked for twice, with the greatest count on record. -/
theorem counters_fit_of_limit :
    let a : Assignment := .ofList [("x", .int 1)]
    let now : Instant := ⟨⟨2024, 2, 29⟩, 3600, 0⟩
    let sweep : Sweep := ⟨1, [], [⟨"x", [.int 1, .int 1]⟩], []⟩
    let p : Progress := ⟨sweep.fingerprint, now, now, .insert .empty a.key 0xffffffffffffffff⟩
    let host : Host Unit := ⟨fun _ _ => .ok p, fun _ w => (.ok (), w), fun _ => now,
      fun _ w => (.ok (), w)⟩
    sweep.runs.length < 2 ^ 64 ∧ ∃ s, Passes host sweep () p sweep.runs s ∧
      s.progress.done a.key = 2 ^ 64 - 1 ∧ s.summary.executed + s.summary.skipped = 2 := by
  intro a now sweep p host
  have hruns : sweep.runs = [⟨0, 0, 1, a⟩, ⟨1, 0, 1, a⟩] := by
    rw [Sweep.runs_eq_flatMap]
    rfl
  have hn : sweep.runs.length < 2 ^ 64 := by
    rw [hruns]
    decide
  have hcount : p.count a.key = 0xffffffffffffffff := by
    rw [Progress.count, NameMap.get?_insert_self]
    rfl
  -- Both runs are on record.
  let s₀ : State Unit := ⟨p, .empty, ⟨0, 0⟩, ()⟩
  have hfirst : step host s₀ ⟨0, 0, 1, a⟩ = .ok (s₀.skip ⟨0, 0, 1, a⟩) :=
    (Step.skipped (by rw [Progress.done, Run.key, hcount]; decide)).eq
  have hsecond : step host (s₀.skip ⟨0, 0, 1, a⟩) ⟨1, 0, 1, a⟩ =
      .ok ((s₀.skip ⟨0, 0, 1, a⟩).skip ⟨1, 0, 1, a⟩) := by
    refine (Step.skipped ?_).eq
    have hbefore : (s₀.skip ⟨0, 0, 1, a⟩).before ⟨1, 0, 1, a⟩ = 1 := by
      rw [State.before, State.skip, NameMap.get?_insert_self]
      rfl
    rw [hbefore]
    show 1 < (p.count a.key).toNat
    rw [hcount]
    decide
  have hp : Passes host sweep () p sweep.runs ((s₀.skip ⟨0, 0, 1, a⟩).skip ⟨1, 0, 1, a⟩) := by
    refine ⟨rfl, List.prefix_rfl, ?_⟩
    rw [hruns, List.foldlM_cons, hfirst, ok_bind, List.foldlM_cons, hsecond]
    rfl
  obtain ⟨htotal, hdone⟩ := (counters_fit host () hn).2.1 _ _ _ hp
  refine ⟨hn, _, hp, ?_, ?_⟩
  · rw [hdone, Progress.done, hcount, hruns]
    exact Nat.max_eq_left (Nat.le_trans (occurrences_le_length _ _) (by decide))
  · rw [htotal, hruns]
    rfl

end ParamSweep.Session
