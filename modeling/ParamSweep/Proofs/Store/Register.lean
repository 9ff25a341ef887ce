import Mathlib.Data.List.Induction
import ParamSweep.Proofs.Store

/-! # A store as a register

A store on which progress can be kept answers calls as a register does that holds progress or
nothing: loading finds what the last call left that kept progress or cleared the store. No call
fails, and no count, key or time is lost on the way through the file.
-/

namespace ParamSweep.Store

variable {s : Store} {fs : Files} {p : Progress} {kept old : Option Progress}

inductive Call
  | save (p : Progress)
  | clear
  | load

inductive Answer
  | done (result : Except StoreError Unit)
  | found (result : Except StoreError (Option Progress))

def call (s : Store) (fs : Files) : Call → Answer × Files
  | .save p =>
    let (result, fs') := s.save p fs
    (.done result, fs')
  | .clear =>
    match s.clear fs with
    | .ok fs' => (.done (.ok ()), fs')
    | .error e => (.done (.error e), fs)
  | .load => (.found (s.load fs), fs)

def answers (s : Store) (fs : Files) : List Call → List Answer
  | [] => []
  | c :: cs => (s.call fs c).1 :: s.answers (s.call fs c).2 cs

/-- What a call leaves in a register; none if it changes nothing. -/
def Call.effect? : Call → Option (Option Progress)
  | .save p => some (some p)
  | .clear => some none
  | .load => none

/-- What a register gives that holds some progress or nothing. -/
def Call.answer (kept : Option Progress) : Call → Answer
  | .save _ => .done (.ok ())
  | .clear => .done (.ok ())
  | .load => .found (.ok kept)

/-- What a register holds after some calls: what the last one left that changes it. -/
def register (old : Option Progress) (calls : List Call) : Option Progress :=
  (calls.reverse.findSome? Call.effect?).getD old

theorem register_cons (old : Option Progress) (c : Call) (calls : List Call) :
    register old (c :: calls) = register (c.effect?.getD old) calls := by
  rw [register, register, List.reverse_cons, List.findSome?_append]
  cases calls.reverse.findSome? Call.effect? with
  | some kept => rfl
  | none => cases c <;> rfl

/-- A store that can keep progress and from which some is loaded, or nothing. -/
structure Keeps (s : Store) (fs : Files) (kept : Option Progress) : Prop where
  ready : s.Ready fs
  load : s.load fs = .ok kept

theorem Keeps.save (h : s.Keeps fs kept) (hp : p.IsSound) :
    (s.call fs (.save p)).1 = .done (.ok ()) ∧ s.Keeps (s.call fs (.save p)).2 (some p) := by
  obtain ⟨fs', hsave, hready, hfind⟩ := h.ready.save p
  rw [call, hsave]
  exact ⟨rfl, hready, load_of_find hfind hp⟩

theorem Keeps.clear (h : s.Keeps fs kept) :
    (s.call fs .clear).1 = .done (.ok ()) ∧ s.Keeps (s.call fs .clear).2 none := by
  obtain ⟨fs', hclear, hready, hfind⟩ := h.ready.clear
  have hload : s.load fs' = .ok none := by rw [Store.load, hfind]
  rw [call, hclear]
  exact ⟨rfl, hready, hload⟩

/-- A call gives what a register gives, and leaves what it leaves. -/
theorem Keeps.call (h : s.Keeps fs kept) {c : Call} (hc : ∀ p, c = .save p → p.IsSound) :
    (s.call fs c).1 = c.answer kept ∧ s.Keeps (s.call fs c).2 (c.effect?.getD kept) := by
  cases c with
  | save p => exact h.save (hc p rfl)
  | clear => exact h.clear
  | load => exact ⟨congrArg Answer.found h.load, h⟩

/-- Each of some calls on a store gives what a register gives after the calls before it. So loading
never fails: it gives the progress that was kept last since the store was last cleared, and what
was there at first if neither has been called. -/
theorem answers_eq_register {calls : List Call} (hready : s.Ready fs) (hload : s.load fs = .ok old)
    (hp : ∀ p, .save p ∈ calls → p.IsSound) (i : Nat) :
    (s.answers fs calls)[i]? = calls[i]?.map (·.answer (register old (calls.take i))) := by
  have h : s.Keeps fs old := ⟨hready, hload⟩
  clear hready hload
  induction calls generalizing fs old i with
  | nil => rfl
  | cons c calls ih =>
    obtain ⟨hanswer, hkeeps⟩ := h.call fun p hc => hp p (hc ▸ List.mem_cons_self)
    cases i with
    | zero => exact congrArg some hanswer
    | succ i =>
      rw [answers, List.getElem?_cons_succ, List.getElem?_cons_succ, List.take_succ_cons,
        register_cons]
      exact ih (fun p hm => hp p (List.mem_cons_of_mem c hm)) i hkeeps

/-- Names that need escapes, the greatest count, and times with fractions of any length, one of them
in a leap second. -/
theorem answers_eq_register_of_escapes :
    let s : Store := ⟨["progress.json"]⟩
    let p : Progress := ⟨"sha256:\"\\\n", ⟨⟨0, 1, 1⟩, 0, 1⟩, ⟨⟨9999, 12, 31⟩, 86399, 1999999999⟩,
      .ofList [("", 0), ("\u0000\"", 0xffffffffffffffff), ("clé", 2)]⟩
    let q : Progress := ⟨"", ⟨⟨2024, 2, 29⟩, 3600, 0⟩, ⟨⟨2024, 2, 29⟩, 3600, 120000000⟩, .empty⟩
    let calls : List Call := [.load, .save q, .save p, .load, .clear, .clear, .load, .save q, .load]
    s.Ready .empty ∧ s.load .empty = .ok none ∧ (∀ p, .save p ∈ calls → p.IsSound) ∧
      (s.answers .empty calls)[3]? = some (.found (.ok (some p))) ∧
      (s.answers .empty calls)[6]? = some (.found (.ok none)) ∧
      (s.answers .empty calls)[8]? = some (.found (.ok (some q))) := by
  intro s p q calls
  have hready : s.Ready .empty := ready_progress
  have hload : s.load .empty = .ok none := load_empty (by decide)
  have hsound : p.IsSound ∧ q.IsSound := by
    refine ⟨⟨⟨?_, ?_, ?_, ?_⟩, ⟨?_, ?_, ?_, ?_⟩⟩, ⟨⟨?_, ?_, ?_, ?_⟩, ⟨?_, ?_, ?_, ?_⟩⟩⟩ <;> decide
  have hp : ∀ r, .save r ∈ calls → r.IsSound := by
    intro r hr
    simp only [calls, List.mem_cons, List.not_mem_nil, Call.save.injEq, reduceCtorEq, or_false,
      false_or] at hr
    rcases hr with rfl | rfl | rfl
    · exact hsound.2
    · exact hsound.1
    · exact hsound.2
  have h := answers_eq_register hready hload hp
  exact ⟨hready, hload, hp, h 3, h 6, h 8⟩

end ParamSweep.Store
