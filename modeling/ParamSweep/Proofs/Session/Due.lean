import Mathlib.Algebra.Group.Nat.Defs
import Mathlib.Data.List.Induction
import ParamSweep.Session

/-! # Runs that are due

Given how many runs of each key have been done, a run is due if so many runs of its key
stand before it. Doing what is due brings the count of each key up to what the runs ask
for, and never above it.
-/

namespace ParamSweep

def Run.key (r : Run) : String := r.assignment.key

namespace Session

def occurrences (rs : List Run) (key : String) : Nat := (rs.map Run.key).count key

/-- The runs before which stand as many runs of their key as have been done. -/
def due (done : String → Nat) (rs : List Run) : List Run :=
  (rs.zipIdx.filter fun (r, i) => decide (done r.key ≤ occurrences (rs.take i) r.key)).map (·.1)

variable (done : String → Nat) (rs : List Run) (r : Run) (key : String)

@[simp] theorem occurrences_nil : occurrences [] key = 0 := rfl

theorem occurrences_append (rs' : List Run) :
    occurrences (rs ++ rs') key = occurrences rs key + occurrences rs' key := by
  rw [occurrences, List.map_append, List.count_append]
  rfl

theorem occurrences_concat :
    occurrences (rs ++ [r]) key = occurrences rs key + if r.key = key then 1 else 0 := by
  rw [occurrences_append, occurrences.eq_1 [r], List.map_singleton, List.count_singleton]
  simp only [beq_iff_eq]

theorem occurrences_le_length : occurrences rs key ≤ rs.length := by
  rw [occurrences, ← List.length_map Run.key]
  exact List.count_le_length

variable {rs} in
theorem occurrences_mono {rs' : List Run} (h : rs <+: rs') :
    occurrences rs key ≤ occurrences rs' key := by
  obtain ⟨rest, rfl⟩ := h
  rw [occurrences_append]
  exact Nat.le_add_right _ _

variable {rs r} in
theorem occurrences_lt {pre rest : List Run} (h : rs = pre ++ r :: rest) :
    occurrences pre r.key < occurrences rs r.key := by
  have hle : pre ++ [r] <+: rs := ⟨rest, by rw [h, List.append_assoc, List.singleton_append]⟩
  have hocc := occurrences_mono r.key hle
  rw [occurrences_concat, if_pos rfl] at hocc
  exact hocc

@[simp] theorem due_nil : due done [] = [] := rfl

theorem length_due_le : (due done rs).length ≤ rs.length := by
  rw [due, List.length_map, ← List.length_zipIdx (l := rs) (i := 0)]
  exact List.length_filter_le _ _

theorem due_concat :
    due done (rs ++ [r]) =
      due done rs ++ if done r.key ≤ occurrences rs r.key then [r] else [] := by
  have hinit : (rs.zipIdx.filter fun (r', i) =>
        decide (done r'.key ≤ occurrences ((rs ++ [r]).take i) r'.key)) =
      rs.zipIdx.filter fun (r', i) => decide (done r'.key ≤ occurrences (rs.take i) r'.key) := by
    refine List.filter_congr fun ⟨r', i⟩ hi => ?_
    have hlt : i < rs.length := by
      have := List.snd_lt_of_mem_zipIdx hi
      omega
    dsimp only
    rw [List.take_append_of_le_length (Nat.le_of_lt hlt)]
  rw [due, List.zipIdx_append, List.filter_append, hinit, List.map_append, due]
  congr 1
  by_cases hd : done r.key ≤ occurrences rs r.key <;> simp [hd]

/-- Of each key, as many runs are due as have not been done. -/
theorem occurrences_due : occurrences (due done rs) key = occurrences rs key - done key := by
  induction rs using List.reverseRecOn with
  | nil => simp
  | append_singleton rs r ih =>
    rw [due_concat, occurrences_append, ih, occurrences_concat]
    by_cases hk : r.key = key
    · subst hk
      by_cases hd : done r.key ≤ occurrences rs r.key
      · rw [if_pos hd, if_pos rfl]
        have : occurrences [r] r.key = 1 := by simp [occurrences]
        omega
      · rw [if_neg hd, if_pos rfl, occurrences_nil]
        omega
    · have : occurrences [r] key = 0 := by simp [occurrences, hk]
      rw [if_neg hk]
      split <;> simp [this]

variable {done rs}

theorem due_eq_nil (h : ∀ key, occurrences rs key ≤ done key) : due done rs = [] := by
  induction rs using List.reverseRecOn with
  | nil => rfl
  | append_singleton rs r ih =>
    have hrs (key : String) : occurrences rs key ≤ done key :=
      Nat.le_trans (occurrences_mono key (List.prefix_append rs [r])) (h key)
    have hr := h r.key
    rw [occurrences_concat, if_pos rfl] at hr
    rw [due_concat, ih hrs, if_neg (by omega), List.append_nil]

/-- Where a first part of the runs has been done, the others are due. -/
theorem due_of_take {n : Nat} {pre : List Run} (hp : pre <+: rs)
    (h : ∀ key, done key = occurrences (rs.take n) key) : due done pre = pre.drop n := by
  induction pre using List.reverseRecOn with
  | nil => simp
  | append_singleton pre r ih =>
    have hpre : pre <+: rs := (List.prefix_append _ _).trans hp
    rw [due_concat, ih hpre, h]
    rcases Nat.lt_or_ge pre.length n with hlt | hge
    · have hle : pre ++ [r] <+: rs.take n :=
        List.prefix_take_iff.mpr ⟨hp, by rw [List.length_append, List.length_singleton]; omega⟩
      have hocc := occurrences_mono r.key hle
      rw [occurrences_concat, if_pos rfl] at hocc
      rw [if_neg (by omega), List.append_nil, List.drop_eq_nil_of_le (Nat.le_of_lt hlt),
        List.drop_eq_nil_of_le (by rw [List.length_append, List.length_singleton]; omega)]
    · have htake : rs.take n <+: pre := by
        obtain ⟨rest, rfl⟩ := hpre
        rw [List.take_append_of_le_length hge]
        exact List.take_prefix n pre
      rw [if_pos (occurrences_mono r.key htake), List.drop_append_of_le_length hge]

end Session

end ParamSweep
