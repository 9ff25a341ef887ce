/-! # Results

What follows from the result of steps that may fail: each step before the last has
succeeded, and a walk through a list that fails does so at one of its items.
-/

namespace ParamSweep

variable {ε α β σ : Type}

theorem ok_bind (a : α) (f : α → Except ε β) : (Except.ok a >>= f) = f a := rfl

theorem bind_eq_ok {x : Except ε α} {f : α → Except ε β} {b : β} :
    (x >>= f) = .ok b ↔ ∃ a, x = .ok a ∧ f a = .ok b := by
  cases x with
  | error e => exact ⟨nofun, fun ⟨_, h, _⟩ => nomatch h⟩
  | ok a => exact ⟨fun h => ⟨a, rfl, h⟩, fun ⟨_, h, hf⟩ => Except.ok.inj h ▸ hf⟩

theorem foldlM_ok (f : σ → α → σ) (xs : List α) (s : σ) :
    xs.foldlM (fun s x => (.ok (f s x) : Except ε σ)) s = .ok (xs.foldl f s) := by
  induction xs generalizing s with
  | nil => rfl
  | cons x xs ih => exact ih (f s x)

theorem foldlM_concat_eq_ok {f : σ → α → Except ε σ} {xs : List α} {x : α} {s s' : σ} :
    (xs ++ [x]).foldlM f s = .ok s' ↔ ∃ t, xs.foldlM f s = .ok t ∧ f t x = .ok s' := by
  have hx (t : σ) : [x].foldlM f t = f t x := by
    rw [List.foldlM_cons]
    exact bind_pure (f t x)
  rw [List.foldlM_append, bind_eq_ok]
  simp only [hx]

/-- What holds at first and is kept up by each step of a walk holds at its end. -/
theorem foldlM_induction {P : List α → σ → Prop} {f : σ → α → Except ε σ} {xs : List α} {s₀ s : σ}
    (h₀ : P [] s₀)
    (hstep : ∀ pre x s s', pre ++ [x] <+: xs → P pre s → f s x = .ok s' → P (pre ++ [x]) s')
    (h : xs.foldlM f s₀ = .ok s) : P xs s := by
  suffices hrest : ∀ ys pre t, pre ++ ys = xs → P pre t → ys.foldlM f t = .ok s → P xs s from
    hrest xs [] s₀ rfl h₀ h
  intro ys
  induction ys with
  | nil =>
    intro pre t hxs hpre ht
    obtain rfl := Except.ok.inj ht
    rwa [← hxs, List.append_nil]
  | cons y ys ih =>
    intro pre t hxs hpre ht
    rw [List.foldlM_cons] at ht
    obtain ⟨u, hu, ht⟩ := bind_eq_ok.mp ht
    have hxs' : pre ++ [y] ++ ys = xs := by rw [List.append_assoc, List.singleton_append, hxs]
    exact ih _ u hxs' (hstep pre y t u ⟨ys, hxs'⟩ hpre hu) ht

theorem foldlM_eq_error {f : σ → α → Except ε σ} {xs : List α} {s : σ} {e : ε}
    (h : xs.foldlM f s = .error e) :
    ∃ ys x zs t, xs = ys ++ x :: zs ∧ ys.foldlM f s = .ok t ∧ f t x = .error e := by
  induction xs generalizing s with
  | nil => exact nomatch h
  | cons x xs ih =>
    rw [List.foldlM_cons] at h
    cases hx : f s x with
    | error e' =>
      rw [hx] at h
      obtain rfl := Except.error.inj h
      exact ⟨[], x, xs, s, rfl, rfl, hx⟩
    | ok s' =>
      rw [hx, ok_bind] at h
      obtain ⟨ys, y, zs, t, rfl, hys, hy⟩ := ih h
      refine ⟨x :: ys, y, zs, t, rfl, ?_, hy⟩
      rw [List.foldlM_cons, hx, ok_bind, hys]

theorem foldlM_of_error {f : σ → α → Except ε σ} {xs : List α} {x : α} {s t : σ} {e : ε}
    (h : xs.foldlM f s = .ok t) (hx : f t x = .error e) (ys : List α) :
    (xs ++ x :: ys).foldlM f s = .error e := by
  rw [List.foldlM_append, h, ok_bind, List.foldlM_cons, hx]
  rfl

end ParamSweep
