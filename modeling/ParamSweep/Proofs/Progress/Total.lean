import Mathlib.Algebra.GroupWithZero.Nat
import ParamSweep.Proofs.Store

/-! # Totals

Each of the counts on record may come close to the bound of 64 bits, and so there is no total of
some that are kept and loaded. Where there is one, it is the sum of the counts. A run that is
recorded adds one to the sum.
-/

namespace ParamSweep

namespace NameMap

variable {α : Type}

theorem lookup_eq_none_of_lt {name : String} {e : String × α} {es : List (String × α)}
    (h : (e :: es).Pairwise (·.1 < ·.1)) (hlt : name < e.1) : (e :: es).lookup name = none := by
  rw [List.lookup_eq_none_iff]
  intro x hx
  rw [bne_iff_ne]
  rcases List.mem_cons.mp hx with rfl | hx
  · exact String.ne_of_lt hlt
  · exact String.ne_of_lt (String.lt_trans hlt (List.rel_of_pairwise_cons h hx))

theorem sum_place (f : α → Nat) (name : String) (a : α) {es : List (String × α)}
    (h : es.Pairwise (·.1 < ·.1)) :
    ((place name a es).map (f ∘ Prod.snd)).sum + ((es.lookup name).map f).getD 0 =
      (es.map (f ∘ Prod.snd)).sum + f a := by
  fun_induction place name a es with
  | case1 => exact Nat.add_comm (f a) 0
  | case2 e es hlt =>
    rw [lookup_eq_none_of_lt h hlt, List.map_cons, List.sum_cons]
    exact Nat.add_comm (f a) _
  | case3 e es hlt hgt ih =>
    rw [lookup_cons_eq, if_neg (String.ne_of_lt hgt).symm, List.map_cons, List.sum_cons,
      List.map_cons, List.sum_cons, Nat.add_assoc, ih (List.pairwise_cons.mp h).2, Nat.add_assoc]
  | case4 e es hlt hgt =>
    have he : name = e.1 := String.le_antisymm (String.not_lt.mp hgt) (String.not_lt.mp hlt)
    rw [lookup_cons_eq, if_pos he, List.map_cons, List.sum_cons, List.map_cons, List.sum_cons]
    show f a + _ + f e.2 = f e.2 + _ + f a
    omega

theorem sum_insert (f : α → Nat) (m : NameMap α) (name : String) (a : α) :
    ((m.insert name a).values.map f).sum + ((m.get? name).map f).getD 0 =
      (m.values.map f).sum + f a := by
  rw [values, values, List.map_map, List.map_map]
  exact sum_place f name a m.sorted

end NameMap

theorem error_overflow_iff {α : Type} {x : Except CountError α} :
    x = .error .overflow ↔ ∀ a, x ≠ .ok a := by
  rcases x with ⟨⟨⟩⟩ | a
  · exact ⟨fun _ => nofun, fun _ => rfl⟩
  · exact ⟨nofun, fun h => absurd rfl (h a)⟩

theorem exists_toNat_eq_iff {n : Nat} : (∃ k : UInt64, k.toNat = n) ↔ n < 2 ^ 64 :=
  ⟨fun ⟨k, hk⟩ => hk ▸ k.toNat_lt, fun h => ⟨.ofNat n, UInt64.toNat_ofNat_of_lt' h⟩⟩

theorem foldlM_addCounts_eq_ok {ns : List UInt64} {n k : UInt64} :
    ns.foldlM addCounts n = .ok k ↔ k.toNat = n.toNat + (ns.map UInt64.toNat).sum := by
  induction ns generalizing n with
  | nil =>
    show Except.ok n = .ok k ↔ k.toNat = n.toNat
    rw [Except.ok.injEq, UInt64.toNat_inj, eq_comm]
  | cons m ns ih =>
    rw [List.foldlM_cons, bind_eq_ok, List.map_cons, List.sum_cons, ← Nat.add_assoc]
    simp only [addCounts_eq_ok, ih]
    constructor
    · rintro ⟨j, hj, hk⟩
      rw [hk, hj]
    · intro hk
      have hlt : n.toNat + m.toNat < 2 ^ 64 := by
        have := k.toNat_lt
        omega
      obtain ⟨j, hj⟩ := exists_toNat_eq_iff.mpr hlt
      exact ⟨j, hj, by rw [hk, hj]⟩

namespace Progress

/-- The sum of the counts of all keys, without bounds. -/
def sum (p : Progress) : Nat := (p.completed.values.map UInt64.toNat).sum

def recordAll (p : Progress) (finished : List (String × Instant)) : Except CountError Progress :=
  finished.foldlM (fun p r => p.record r.1 r.2) p

variable {p q : Progress}

theorem total_eq_ok_iff {n : UInt64} : p.total = .ok n ↔ n.toNat = p.sum := by
  rw [total, foldlM_addCounts_eq_ok, sum]
  exact iff_of_eq (congrArg (n.toNat = ·) (Nat.zero_add _))

theorem total_eq_error_iff : p.total = .error .overflow ↔ 2 ^ 64 ≤ p.sum := by
  rw [error_overflow_iff, ← Nat.not_lt, ← exists_toNat_eq_iff, not_exists]
  exact forall_congr' fun n => not_congr total_eq_ok_iff

theorem sum_insert (p : Progress) (key : String) (n : UInt64) :
    ((p.completed.insert key n).values.map UInt64.toNat).sum + p.done key = p.sum + n.toNat := by
  have hdone : p.done key = ((p.completed.get? key).map UInt64.toNat).getD 0 := by
    rw [done, count]
    cases p.completed.get? key <;> rfl
  rw [hdone]
  exact NameMap.sum_insert UInt64.toNat p.completed key n

theorem done_le_sum (p : Progress) (key : String) : p.done key ≤ p.sum := by
  have hs := p.sum_insert key 0
  rw [UInt64.toNat_zero] at hs
  omega

theorem sum_of_record {key : String} {now : Instant} (h : p.record key now = .ok q) :
    q.sum = p.sum + 1 := by
  obtain ⟨n, hn, rfl⟩ := record_eq_ok.mp h
  have hs := p.sum_insert key n
  rw [hn] at hs
  show ((p.completed.insert key n).values.map UInt64.toNat).sum = p.sum + 1
  omega

theorem sum_of_recordAll {finished : List (String × Instant)} (h : p.recordAll finished = .ok q) :
    q.sum = p.sum + finished.length := by
  refine foldlM_induction (P := fun pre t => t.sum = p.sum + pre.length) rfl
    (fun pre r t u _ ht hu => ?_) h
  rw [sum_of_record hu, ht, List.length_append, List.length_singleton, Nat.add_assoc]

/-- Runs can be recorded as long as no count comes to its end. -/
theorem exists_recordAll_iff {finished : List (String × Instant)} :
    (∃ q, p.recordAll finished = .ok q) ↔
      ∀ key, p.done key + (finished.map (·.1)).count key < 2 ^ 64 := by
  induction finished generalizing p with
  | nil => exact ⟨fun _ key => (p.count key).toNat_lt, fun _ => ⟨p, rfl⟩⟩
  | cons r finished ih =>
    have hcons : (∃ q, p.recordAll (r :: finished) = .ok q) ↔
        ∃ t, p.record r.1 r.2 = .ok t ∧ ∃ q, t.recordAll finished = .ok q := by
      simp only [recordAll, List.foldlM_cons, bind_eq_ok]
      rw [exists_comm]
      simp only [exists_and_left]
    -- what has been recorded moves from the runs to the counts
    have hmove {t : Progress} (ht : p.record r.1 r.2 = .ok t) (key : String) :
        t.done key + (finished.map (·.1)).count key =
          p.done key + ((r :: finished).map (·.1)).count key := by
      rw [done_of_record ht, List.map_cons, List.count_cons]
      by_cases hk : key = r.1
      · subst hk
        rw [if_pos rfl, if_pos (beq_self_eq_true _)]
        omega
      · rw [if_neg hk, if_neg (by simpa using Ne.symm hk)]
        rfl
    rw [hcons]
    constructor
    · rintro ⟨t, ht, hq⟩ key
      rw [← hmove ht]
      exact ih.mp hq key
    · intro h
      have hroom := h r.1
      rw [List.map_cons, List.count_cons_self] at hroom
      have hlt : p.done r.1 + 1 < 2 ^ 64 := by omega
      obtain ⟨t, ht⟩ := exists_record hlt r.2
      exact ⟨t, ht, ih.mpr fun key => hmove ht key ▸ h key⟩

/-- There is a total if 64 bits are enough for the sum of the counts, and it is that sum. Runs are
recorded as long as no count comes to its end, and then they add their number to the sum. -/
theorem total_spec (p : Progress) (finished : List (String × Instant)) :
    (∀ n, p.total = .ok n ↔ n.toNat = p.sum) ∧ (p.total = .error .overflow ↔ 2 ^ 64 ≤ p.sum) ∧
    ((∃ q, p.recordAll finished = .ok q) ↔
      ∀ key, p.done key + (finished.map (·.1)).count key < 2 ^ 64) ∧
    ∀ q, p.recordAll finished = .ok q →
      (∀ n, q.total = .ok n ↔ n.toNat = p.sum + finished.length) ∧
      (q.total = .error .overflow ↔ 2 ^ 64 ≤ p.sum + finished.length) := by
  refine ⟨fun n => total_eq_ok_iff, total_eq_error_iff, exists_recordAll_iff, fun q hq => ?_⟩
  rw [← sum_of_recordAll hq]
  exact ⟨fun n => total_eq_ok_iff, total_eq_error_iff⟩

/-- Three runs on record, and two more that finish. -/
theorem total_spec_of_records :
    let now : Instant := ⟨⟨2024, 1, 1⟩, 0, 0⟩
    let p : Progress := ⟨"", now, now, .ofList [("a", 2), ("b", 1)]⟩
    ∃ q, p.recordAll [("b", now), ("c", now)] = .ok q ∧ q.total = .ok 5 := by
  intro now p
  have hsum : p.sum = 3 := by
    rw [sum, NameMap.values, NameMap.entries_ofList (by decide)]
    rfl
  have hroom (key : String) : p.done key + ["b", "c"].count key < 2 ^ 64 := by
    have hdone := p.done_le_sum key
    have hcount : ["b", "c"].count key ≤ 2 := List.count_le_length
    omega
  obtain ⟨-, -, hall, htotal⟩ := total_spec p [("b", now), ("c", now)]
  obtain ⟨q, hq⟩ := hall.mpr hroom
  obtain ⟨hok, -⟩ := htotal q hq
  exact ⟨q, hq, (hok 5).mpr (by rw [hsum]; rfl)⟩

/-- Two counts that are kept and loaded, of which there is no total. -/
theorem total_of_overflow :
    let store : Store := ⟨["progress.json"]⟩
    let now : Instant := ⟨⟨2024, 1, 1⟩, 0, 0⟩
    let p : Progress := ⟨"", now, now, .ofList [("a", 0xffffffffffffffff), ("b", 1)]⟩
    (∃ fs, store.load fs = .ok (some p)) ∧ p.sum = 2 ^ 64 ∧ p.total = .error .overflow := by
  intro store now p
  have hready : store.Ready .empty := Store.ready_progress
  have hsound : p.IsSound := by
    refine ⟨⟨?_, ?_, ?_, ?_⟩, ⟨?_, ?_, ?_, ?_⟩⟩ <;> decide
  obtain ⟨fs, -, -, hfind⟩ := hready.save p
  have hvalues : p.completed.values = [0xffffffffffffffff, 1] :=
    congrArg (List.map Prod.snd) (NameMap.entries_ofList (by decide))
  refine ⟨⟨fs, Store.load_of_find hfind hsound⟩, ?_, ?_⟩
  · rw [sum, hvalues]
    rfl
  · rw [total, hvalues]
    rfl

end Progress

end ParamSweep
