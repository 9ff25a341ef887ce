import ParamSweep.Sweep.Basic

/-! # The runs of a sweep

Combinations are numbered in row-major order, the last axis moving fastest, and each is
run as often as the rules say. A cursor stands before a run; it finds the next one
without building those that follow, so that a sweep can be walked which has more runs
than could ever be listed.
-/

namespace ParamSweep

/-- One run of a combination. -/
structure Run where
  combination : Nat
  /-- How many runs of the combination came before. -/
  repetition : Nat
  /-- How often the combination is run. -/
  repeats : Nat
  assignment : Assignment
  deriving DecidableEq

/-- The index of a combination on each axis, and what is left of its number. An axis without
values takes nothing from the number. -/
def subscriptsAndRest (index : Nat) : List Nat → List Nat × Nat
  | [] => ([], index)
  | size :: sizes =>
    let (is, rest) := subscriptsAndRest index sizes
    if size = 0 then (0 :: is, rest) else (rest % size :: is, rest / size)

/-- The index of a combination on each axis. -/
def subscripts (index : Nat) (sizes : List Nat) : List Nat := (subscriptsAndRest index sizes).1

/-- A place in the walk through a sweep: the run that is due. -/
structure Cursor where
  /-- The sizes of the axes, found out once. -/
  sizes : List Nat
  combination : Nat
  repetition : Nat
  deriving DecidableEq, Repr

namespace Sweep

/-- The names and values at an index on each axis. -/
def bindings (s : Sweep) (is : List Nat) : List (String × Value) :=
  (List.zipWith Axis.binding? s.axes is).filterMap id ++
    (List.zipWith Bundle.bindings s.bundles (is.drop s.axes.length)).flatten

/-- The assignment of a combination. -/
def assignment (s : Sweep) (sizes : List Nat) (combination : Nat) : Assignment :=
  .ofList (s.bindings (subscripts combination sizes))

def start (s : Sweep) : Cursor := ⟨s.sizes, 0, 0⟩

/-- The run that is due, or the first one of a later combination that has any, and where the
cursor stands then. Behind the last run there is none any more. -/
def next (s : Sweep) (c : Cursor) : Option Run × Cursor :=
  if c.combination < countOf c.sizes then
    let a := s.assignment c.sizes c.combination
    let n := (s.repeatCount a).toNat
    if c.repetition < n then
      (some ⟨c.combination, c.repetition, n, a⟩, { c with repetition := c.repetition + 1 })
    else s.next { c with combination := c.combination + 1, repetition := 0 }
  else (none, c)
termination_by countOf c.sizes - c.combination

/-- A run leads to a later one of the same combination or to a later combination. -/
theorem next_advances {s : Sweep} {c c' : Cursor} {r : Run} (h : s.next c = (some r, c')) :
    c'.sizes = c.sizes ∧ c'.combination < countOf c.sizes ∧ c'.repetition ≤ UInt64.size ∧
      (c.combination < c'.combination ∨
        c.combination = c'.combination ∧ c.repetition < c'.repetition) := by
  fun_induction next s c with
  | case1 c hc a n hn =>
    have : n < UInt64.size := (s.repeatCount a).toNat_lt_size
    obtain ⟨-, rfl⟩ := Prod.mk.inj h
    exact ⟨rfl, hc, by simp only; omega, .inr ⟨rfl, Nat.lt_succ_self _⟩⟩
  | case2 c hc a n hn ih =>
    obtain ⟨hs, hlt, hr, hadv⟩ := ih h
    exact ⟨hs, hlt, hr, .inl (by simp only at hadv; omega)⟩
  | case3 => simp at h

/-- Does a step for each run from a cursor on, until one fails. -/
def walkFrom {ε σ : Type} (s : Sweep) (step : σ → Run → Except ε σ) (c : Cursor) (state : σ) :
    Except ε σ :=
  match _h : s.next c with
  | (none, _) => .ok state
  | (some r, c') =>
    match step state r with
    | .ok state => s.walkFrom step c' state
    | .error e => .error e
termination_by (countOf c.sizes - c.combination, UInt64.size - c.repetition)
decreasing_by
  obtain ⟨hs, hlt, hr, hadv⟩ := next_advances _h
  rw [hs]
  rcases hadv with hadv | ⟨heq, hadv⟩
  · exact Prod.Lex.left _ _ (by omega)
  · rw [heq]
    exact Prod.Lex.right _ (by omega)

/-- Does a step for each run, until one fails. -/
def walk {ε σ : Type} (s : Sweep) (step : σ → Run → Except ε σ) (state : σ) : Except ε σ :=
  s.walkFrom step s.start state

/-- Passes the assignment of each run to a function with a state. -/
def run {σ : Type} (s : Sweep) (f : Assignment → σ → σ) (state : σ) : σ :=
  match (s.walk (fun state r => .ok (f r.assignment state)) state : Except Empty σ) with
  | .ok state => state

/-- Does a task for each run, until it fails. How many were done, and the state after it. -/
def tryRun {ε σ : Type} (s : Sweep) (task : Assignment → σ → Except ε Unit × σ) (state : σ) :
    Except ε Nat × σ :=
  let step := fun (n, state) (r : Run) =>
    match task r.assignment state with
    | (.ok (), state) => .ok (n + 1, state)
    | (.error e, state) => .error (e, state)
  match s.walk step (0, state) with
  | .ok (n, state) => (.ok n, state)
  | .error (e, state) => (.error e, state)

/-- Goes past some runs. -/
def skip (s : Sweep) : Nat → Cursor → Cursor
  | 0, c => c
  | n + 1, c =>
    match s.next c with
    | (none, c) => c
    | (some _, c) => s.skip n c

/-- At most so many runs from a cursor on, and whether the walk was seen to end. -/
def take (s : Sweep) : Nat → Cursor → List Run × Bool
  | 0, _ => ([], false)
  | n + 1, c =>
    match s.next c with
    | (none, _) => ([], true)
    | (some r, c) =>
      let (rs, ended) := s.take n c
      (r :: rs, ended)

end Sweep

end ParamSweep
