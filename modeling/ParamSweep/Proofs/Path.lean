import Mathlib.Data.List.Induction
import ParamSweep.Path

/-! # Other extensions

A path that ends in a name gets another extension in its last part only. The new name is
another one, unless the extension was there before.
-/

namespace ParamSweep.Path

theorem stem_eq_or (name : String) :
    stem name = name ∨
      ∃ suffix, '.' ∉ suffix ∧ name.toList = (stem name).toList ++ '.' :: suffix := by
  rw [stem]
  have happ := List.takeWhile_append_dropWhile (p := (· != '.')) (l := name.toList.reverse)
  split
  · exact .inl rfl
  · exact .inl rfl
  · next c before hne heq =>
    right
    have hc : c = '.' := by
      have := List.head?_dropWhile_not (· != '.') name.toList.reverse
      rw [heq] at this
      simpa using this
    refine ⟨(name.toList.reverse.takeWhile (· != '.')).reverse, ?_, ?_⟩
    · rw [List.mem_reverse]
      intro hm
      have := List.all_eq_true.mp List.all_takeWhile _ hm
      simp at this
    · rw [heq, hc] at happ
      have hrev := congrArg List.reverse happ
      rw [List.reverse_reverse, List.reverse_append, List.reverse_cons, List.append_assoc,
        List.singleton_append] at hrev
      rw [String.toList_ofList, hrev]

theorem stem_append_ne {name extension : String} (h : '.' ∈ extension.toList) :
    stem name ++ "." ++ extension ≠ name := by
  intro he
  have hlist := congrArg String.toList he
  rcases stem_eq_or name with hs | ⟨suffix, hdot, hs⟩
  · have hl := congrArg List.length hlist
    simp [hs] at hl
  · rw [hs] at hlist
    simp only [String.toList_append, List.append_assoc, List.append_cancel_left_eq] at hlist
    have hsuffix : extension.toList = suffix := (List.cons.inj hlist).2
    exact hdot (hsuffix ▸ h)

/-- What stands at the end of a path, but for strokes, is a name. -/
structure EndsIn (p : Path) (before : List String) (name : String) : Prop where
  split : p.reverse.dropWhile (· == "") = name :: before.reverse
  ne_here : name ≠ "."
  ne_up : name ≠ ".."

theorem isIdle_iff {part : String} : isIdle part = true ↔ part = "" ∨ part = "." := by
  simp [isIdle]

theorem EndsIn.ne_empty {p : Path} {before : List String} {name : String}
    (h : p.EndsIn before name) : name ≠ "" := by
  have := List.head?_dropWhile_not (· == "") p.reverse
  rw [h.split] at this
  simpa using this

theorem EndsIn.not_isIdle {p : Path} {before : List String} {name : String}
    (h : p.EndsIn before name) : ¬ isIdle name := by
  rw [isIdle_iff]
  exact fun hi => hi.elim h.ne_empty h.ne_here

theorem endsIn_concat {base before : List String} {part name : String} (hp : part ≠ "") :
    EndsIn (base ++ [part]) before name ↔
      part = name ∧ base = before ∧ name ≠ "." ∧ name ≠ ".." := by
  have hsplit : (base ++ [part]).reverse.dropWhile (· == "") = part :: base.reverse := by
    rw [List.reverse_concat, List.dropWhile_cons_of_neg (by simpa using hp)]
  constructor
  · rintro ⟨hs, hhere, hup⟩
    rw [hsplit] at hs
    obtain ⟨rfl, hb⟩ := List.cons.inj hs
    exact ⟨rfl, List.reverse_inj.mp hb, hhere, hup⟩
  · rintro ⟨rfl, rfl, hhere, hup⟩
    exact ⟨hsplit, hhere, hup⟩

theorem dropWhile_isIdle {parts rest : List String} {name : String} (hn : ¬ isIdle name)
    (h : parts.dropWhile (· == "") = name :: rest) : parts.dropWhile isIdle = name :: rest := by
  induction parts with
  | nil => exact nomatch h
  | cons part parts ih =>
    by_cases hp : part = ""
    · rw [List.dropWhile_cons_of_pos (by simpa using hp)] at h
      rw [List.dropWhile_cons_of_pos (isIdle_iff.mpr (.inl hp)), ih h]
    · rw [List.dropWhile_cons_of_neg (by simpa using hp)] at h
      obtain ⟨rfl, rfl⟩ := List.cons.inj h
      rw [List.dropWhile_cons_of_neg hn]

/-- A path that ends in a name after it got an extension ended in one before, up to parts that
lead nowhere else. -/
theorem withExtension_endsIn {p : Path} {extension old : String} {before : List String}
    (h : (p.withExtension extension).EndsIn before old) :
    ∃ name idle, p = before ++ name :: idle ∧ (∀ part ∈ idle, isIdle part) ∧ ¬ isIdle name ∧
      name ≠ ".." ∧ old = stem name ++ "." ++ extension := by
  rw [withExtension] at h
  split at h
  · next hidle =>
    rw [dropWhile_isIdle h.not_isIdle h.split] at hidle
    cases hidle
  · next name rest hname =>
    have hn : ¬ isIdle name := by
      have := List.head?_dropWhile_not isIdle p.reverse
      rw [hname] at this
      simpa using this
    split at h
    · next hup =>
      rw [dropWhile_isIdle h.not_isIdle h.split] at hname
      exact absurd ((List.cons.inj hname).1.trans hup) h.ne_up
    · next hup =>
      split at h
      · exact absurd ((endsIn_concat (by decide)).mp h).1.symm h.ne_up
      · have hne : stem name ++ "." ++ extension ≠ "" := by
          intro he
          simpa using congrArg (fun s => s.toList.length) he
        obtain ⟨rfl, rfl, -, -⟩ := (endsIn_concat hne).mp h
        refine ⟨name, (p.reverse.takeWhile isIdle).reverse, ?_, ?_, hn, hup, rfl⟩
        · have happ := List.takeWhile_append_dropWhile (p := isIdle) (l := p.reverse)
          rw [hname] at happ
          simpa using (congrArg List.reverse happ).symm
        · intro part hpart
          exact List.all_eq_true.mp List.all_takeWhile _ (List.mem_reverse.mp hpart)

theorem EndsIn.eq_concat {p : Path} {before : List String} {name : String}
    (h : p.EndsIn before name) (hlast : p.getLast? ≠ some "") : p = before ++ [name] := by
  rcases List.eq_nil_or_concat p with rfl | ⟨base, part, rfl⟩
  · exact nomatch h.split
  · rw [List.concat_eq_append] at h hlast ⊢
    have hp : part ≠ "" := by
      rintro rfl
      exact hlast List.getLast?_concat
    obtain ⟨rfl, rfl, -, -⟩ := (endsIn_concat hp).mp h
    rfl

theorem withExtension_concat {before : List String} {name : String} (extension : String)
    (hn : ¬ isIdle name) (hup : name ≠ "..") :
    withExtension (before ++ [name]) extension =
      before ++ [if stem name = "." then ".." else stem name ++ "." ++ extension] := by
  rw [withExtension, List.reverse_concat, List.dropWhile_cons_of_neg hn]
  dsimp only
  rw [if_neg hup, List.getLast?_concat, List.reverse_reverse]
  by_cases hs : stem name = "."
  · rw [if_pos ⟨hs, rfl⟩, if_pos hs]
  · rw [if_neg (mt And.left hs), if_neg hs]

theorem append_extension_ne (name : String) {extension : String} (h : 2 ≤ extension.length) :
    name ++ "." ++ extension ≠ "" ∧ name ++ "." ++ extension ≠ "." ∧
      name ++ "." ++ extension ≠ ".." := by
  have hlen : 2 < (name ++ "." ++ extension).length := by
    have hdot : ".".length = 1 := rfl
    rw [String.length_append, String.length_append]
    omega
  exact ⟨fun he => absurd (he ▸ hlen) (by decide), fun he => absurd (he ▸ hlen) (by decide),
    fun he => absurd (he ▸ hlen) (by decide)⟩

theorem endsIn_or_dot {before idle : List String} {name : String}
    (hidle : ∀ part ∈ idle, isIdle part) (hn : ¬ isIdle name) (hup : name ≠ "..") :
    EndsIn (before ++ name :: idle) before name ∨
      ∃ idle', (∀ part ∈ idle', isIdle part) ∧
        (before ++ name :: idle).reverse.dropWhile (· == "") =
          "." :: (before ++ name :: idle').reverse := by
  induction idle using List.reverseRecOn with
  | nil =>
    have hempty : name ≠ "" := fun he => hn (isIdle_iff.mpr (.inl he))
    have hhere : name ≠ "." := fun he => hn (isIdle_iff.mpr (.inr he))
    exact .inl ((endsIn_concat hempty).mpr ⟨rfl, rfl, hhere, hup⟩)
  | append_singleton idle last ih =>
    have hinit : ∀ part ∈ idle, isIdle part := fun part hp =>
      hidle part (List.mem_append_left _ hp)
    have hrev : (before ++ name :: (idle ++ [last])).reverse =
        last :: (before ++ name :: idle).reverse := by simp
    rcases isIdle_iff.mp (hidle last (by simp)) with rfl | rfl
    · have hdrop : (before ++ name :: (idle ++ [""])).reverse.dropWhile (· == "") =
          (before ++ name :: idle).reverse.dropWhile (· == "") := by
        rw [hrev, List.dropWhile_cons_of_pos rfl]
      rcases ih hinit with ⟨hsplit, hhere, -⟩ | ⟨idle', hidle', hd⟩
      · exact .inl ⟨hdrop.trans hsplit, hhere, hup⟩
      · exact .inr ⟨idle', hidle', hdrop.trans hd⟩
    · refine .inr ⟨idle, hinit, ?_⟩
      rw [hrev, List.dropWhile_cons_of_neg (by decide)]

end ParamSweep.Path
