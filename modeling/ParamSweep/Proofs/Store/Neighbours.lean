import ParamSweep.Proofs.Store.Register

/-! # Stores in one directory

What a store does changes no directory, and in the directory of its file only two names: that of
the file and that of the temporary one. So a store does not notice the calls on another one in the
same directory, unless its name is that of the other one's temporary file. In that case what it
keeps is lost when the other one keeps progress.
-/

namespace ParamSweep

/-- Two trees with the same directories, in which one name means the same. -/
structure Files.Alike (directory : Location) (name : String) (fs fs' : Files) : Prop where
  same : fs.SameDirectories fs'
  node : fs.node? (directory ++ [name]) = fs'.node? (directory ++ [name])

theorem Files.Alike.refl (directory : Location) (name : String) (fs : Files) :
    Files.Alike directory name fs fs := ⟨.refl fs, rfl⟩

theorem Files.write_up {fs : Files} {before : List String} {directory : Location}
    (hw : fs.walk [] before = .ok directory) (hf : Path.fault? (before ++ [".."]) = none)
    (bytes : List UInt8) : fs.write (before ++ [".."]) bytes = .error .isADirectory := by
  have hwalk : fs.walk [] (before ++ [".."]) = .ok directory.dropLast := by
    rw [walk_append, hw]
    rfl
  have hsplit : (before ++ [".."]).reverse.dropWhile (· == "") = ".." :: before.reverse := by
    rw [List.reverse_concat, List.dropWhile_cons_of_neg (by decide)]
  rw [write, locate_of_dots (.inr rfl) hf hsplit, hwalk]
  rfl

theorem Files.write_of_long {fs : Files} {p : Path} {directory : Location} {name : String}
    (hl : fs.locate p = .ok ⟨directory, some name, false⟩) (hlong : longestName < name.utf8ByteSize)
    (bytes : List UInt8) : fs.write p bytes = .error .nameTooLong := by
  rw [write, hl, ok_bind]
  dsimp only
  rw [child?, if_pos hlong]
  rfl

namespace Store

variable {s t : Store} {fs fs' : Files} {directory : Location} {name p q : String}

/-! ### What a call changes -/

theorem write_temporary_cases (h : fs.Leads s.path directory name) :
    (∃ e, ∀ fs' bytes, fs.SameDirectories fs' → fs'.write s.temporary bytes = .error e) ∨
      fs.Leads s.temporary directory (temporaryName name) ∧
        fs.node? (directory ++ [temporaryName name]) ≠ some .directory := by
  obtain ⟨before, hwalk, htemporary⟩ := temporary_of_leads h
  have hwalk' (fs' : Files) (hd : fs.SameDirectories fs') : fs'.walk [] before = .ok directory :=
    Files.walk_of_keepsDirectories hd.keeps hwalk
  cases hf : s.temporary.fault? with
  | some e =>
    refine .inl ⟨e, fun fs' bytes _ => ?_⟩
    rw [Files.write, Files.locate_of_fault hf]
    rfl
  | none =>
    rw [htemporary] at hf ⊢
    split at hf
    · next hs =>
      rw [if_pos hs]
      exact .inl ⟨.isADirectory, fun fs' bytes hd => Files.write_up (hwalk' fs' hd) hf bytes⟩
    · next hs =>
      rw [if_neg hs]
      have hlocate (fs' : Files) (hd : fs.SameDirectories fs') :
          fs'.locate (before ++ [temporaryName name]) =
            .ok ⟨directory, some (temporaryName name), false⟩ :=
        Files.locate_concat (Path.append_extension_ne _ (by decide)) hf (hwalk' fs' hd)
      by_cases hlong : longestName < (temporaryName name).utf8ByteSize
      · exact .inl ⟨.nameTooLong, fun fs' bytes hd => Files.write_of_long (hlocate fs' hd) hlong _⟩
      · have hleads : fs.Leads (before ++ [temporaryName name]) directory (temporaryName name) :=
          ⟨hlocate fs (.refl fs), Nat.le_of_not_lt hlong⟩
        by_cases hd : fs.node? (directory ++ [temporaryName name]) = some .directory
        · refine .inl ⟨.isADirectory, fun fs' bytes hsame => ?_⟩
          rw [(hleads.of_keepsDirectories hsame.keeps).write, if_pos ((hsame.node?_iff _).mp hd)]
        · exact .inr ⟨hleads, hd⟩

theorem save_cases (h : fs.Leads s.path directory name) :
    (∃ e, ∀ fs' r, fs.SameDirectories fs' → s.save r fs' = (.error e, fs')) ∨
      fs.Leads s.temporary directory (temporaryName name) ∧
        fs.node? (directory ++ [temporaryName name]) ≠ some .directory := by
  refine (write_temporary_cases h).imp_left fun ⟨e, he⟩ => ⟨.io e, fun fs' r hd => ?_⟩
  rw [save, he fs' _ hd]

/-- A call changes no directory, and no node but those of the file and of the temporary one. -/
theorem call_frame (h : fs.Leads s.path directory name) (c : Call) :
    fs.SameDirectories (s.call fs c).2 ∧ ∀ other, name ≠ other → temporaryName name ≠ other →
      (s.call fs c).2.node? (directory ++ [other]) = fs.node? (directory ++ [other]) := by
  cases c with
  | save r =>
    rcases save_cases h with ⟨e, he⟩ | ⟨hold, hnold⟩
    · rw [call, he fs r (.refl fs)]
      exact ⟨.refl fs, fun _ _ _ => rfl⟩
    · have hne := temporaryName_ne name
      rw [call, save_of_leads hold h hne hnold]
      by_cases hd : fs.node? (directory ++ [name]) = some .directory
      · rw [if_pos hd]
        exact ⟨Files.sameDirectories_put _ hnold, fun _ _ ht => Files.node?_put_of_ne _ _ ht _⟩
      · rw [if_neg hd]
        exact ⟨Files.sameDirectories_moved _ hne hnold hd,
          fun _ hn ht => Files.node?_moved_of_ne _ _ _ ht hn⟩
  | clear =>
    rw [call, clear, h.remove]
    cases hnode : fs.node? (directory ++ [name]) with
    | none => exact ⟨.refl fs, fun _ _ _ => rfl⟩
    | some node =>
      cases node with
      | directory => exact ⟨.refl fs, fun _ _ _ => rfl⟩
      | file bytes =>
        exact ⟨Files.sameDirectories_erase (by simp [hnode]),
          fun _ hn _ => Files.node?_erase_of_ne _ _ hn⟩
  | load => exact ⟨.refl fs, fun _ _ _ => rfl⟩

/-! ### What a call sees -/

/-- A call gives the same in trees that are alike, and leaves trees that are. -/
theorem call_of_alike (h : fs.Leads t.path directory name) (ha : Files.Alike directory name fs fs')
    (c : Call) : (t.call fs c).1 = (t.call fs' c).1 ∧
      Files.Alike directory name (t.call fs c).2 (t.call fs' c).2 := by
  have h' := h.of_keepsDirectories ha.same.keeps
  cases c with
  | save r =>
    rcases save_cases h with ⟨e, he⟩ | ⟨hold, hnold⟩
    · rw [call, call, he fs r (.refl fs), he fs' r ha.same]
      exact ⟨rfl, ha⟩
    · have hne := temporaryName_ne name
      have hnold' := mt (ha.same.node?_iff _).mpr hnold
      rw [call, call, save_of_leads hold h hne hnold,
        save_of_leads (hold.of_keepsDirectories ha.same.keeps) h' hne hnold', ← ha.node]
      by_cases hd : fs.node? (directory ++ [name]) = some .directory
      · rw [if_pos hd, if_pos hd]
        refine ⟨rfl, ((Files.sameDirectories_put _ hnold).symm.trans ha.same).trans
          (Files.sameDirectories_put _ hnold'), ?_⟩
        rw [Files.node?_put_of_ne _ _ hne, Files.node?_put_of_ne _ _ hne, ha.node]
      · rw [if_neg hd, if_neg hd]
        refine ⟨rfl, ((Files.sameDirectories_moved _ hne hnold hd).symm.trans ha.same).trans
          (Files.sameDirectories_moved _ hne hnold' (ha.node ▸ hd)), ?_⟩
        rw [Files.node?_moved_new _ _ _ hne, Files.node?_moved_new _ _ _ hne]
  | clear =>
    rw [call, call, clear, clear, h.remove, h'.remove, ← ha.node]
    cases hnode : fs.node? (directory ++ [name]) with
    | none => exact ⟨rfl, ha⟩
    | some node =>
      cases node with
      | directory => exact ⟨rfl, ha⟩
      | file bytes =>
        have hfile : fs.node? (directory ++ [name]) ≠ some .directory := by simp [hnode]
        refine ⟨rfl, ((Files.sameDirectories_erase hfile).symm.trans ha.same).trans
          (Files.sameDirectories_erase (ha.node ▸ hfile)), ?_⟩
        rw [Files.node?_erase, Files.node?_erase]
  | load =>
    refine ⟨congrArg Answer.found ?_, ha⟩
    rw [load, load, h.find, h'.find, ha.node]

/-! ### Calls on several stores -/

/-- What the calls on one store give, among calls on several. -/
def answersOf (t : Store) (fs : Files) : List (Store × Call) → List Answer
  | [] => []
  | (s, c) :: calls =>
    if s = t then (s.call fs c).1 :: answersOf t (s.call fs c).2 calls
    else answersOf t (s.call fs c).2 calls

def callsOf (t : Store) (calls : List (Store × Call)) : List Call :=
  (calls.filter fun sc => sc.1 = t).map (·.2)

theorem answersOf_cons_self (c : Call) (calls : List (Store × Call)) :
    answersOf t fs ((t, c) :: calls) = (t.call fs c).1 :: answersOf t (t.call fs c).2 calls :=
  if_pos rfl

theorem answersOf_cons_of_ne (h : s ≠ t) (c : Call) (calls : List (Store × Call)) :
    answersOf t fs ((s, c) :: calls) = answersOf t (s.call fs c).2 calls :=
  if_neg h

theorem callsOf_cons_self (t : Store) (c : Call) (calls : List (Store × Call)) :
    callsOf t ((t, c) :: calls) = c :: callsOf t calls := by
  rw [callsOf, List.filter_cons_of_pos (by simp), List.map_cons, callsOf]

theorem callsOf_cons_of_ne (h : s ≠ t) (c : Call) (calls : List (Store × Call)) :
    callsOf t ((s, c) :: calls) = callsOf t calls := by
  rw [callsOf, List.filter_cons_of_neg (by simpa using h), callsOf]

/-- A store whose calls another one in the directory does not notice that has some name. -/
def IsApart (directory : Location) (name : String) (fs : Files) (s : Store) : Prop :=
  ∃ p, fs.Leads s.path directory p ∧ p ≠ name ∧ temporaryName p ≠ name

theorem IsApart.of_sameDirectories (h : s.IsApart directory name fs)
    (hd : fs.SameDirectories fs') : s.IsApart directory name fs' := by
  obtain ⟨p, hp, hne⟩ := h
  exact ⟨p, hp.of_keepsDirectories hd.keeps, hne⟩

theorem answersOf_of_alike {calls : List (Store × Call)} (ht : fs.Leads t.path directory name)
    (ha : Files.Alike directory name fs fs')
    (hcalls : ∀ sc ∈ calls, sc.1 = t ∨ sc.1.IsApart directory name fs) :
    answersOf t fs calls = t.answers fs' (callsOf t calls) := by
  induction calls generalizing fs fs' with
  | nil => rfl
  | cons sc calls ih =>
    obtain ⟨s, c⟩ := sc
    obtain ⟨hs, hcalls⟩ := List.forall_mem_cons.mp hcalls
    have hrest (hd : fs.SameDirectories (s.call fs c).2) :
        ∀ sc ∈ calls, sc.1 = t ∨ sc.1.IsApart directory name (s.call fs c).2 := fun sc hsc =>
      (hcalls sc hsc).imp_right (·.of_sameDirectories hd)
    by_cases he : s = t
    · subst he
      have hd := (call_frame ht c).1
      obtain ⟨hanswer, hnext⟩ := call_of_alike ht ha c
      rw [answersOf_cons_self, callsOf_cons_self, answers, hanswer,
        ih (ht.of_keepsDirectories hd.keeps) hnext (hrest hd)]
    · obtain ⟨p, hp, hne, htemporary⟩ := hs.resolve_left he
      obtain ⟨hd, hnode⟩ := call_frame hp c
      have hnext : Files.Alike directory name (s.call fs c).2 fs' :=
        ⟨hd.symm.trans ha.same, (hnode name hne htemporary).trans ha.node⟩
      rw [answersOf_cons_of_ne he, callsOf_cons_of_ne he,
        ih (ht.of_keepsDirectories hd.keeps) hnext (hrest hd)]

theorem load_of_save_temporary {r : Progress} (hs : fs.Leads s.path directory name)
    (ht : fs.Leads t.path directory (temporaryName name)) (hsave : s.save r fs = (.ok (), fs')) :
    t.load fs' = .ok none := by
  rcases save_cases hs with ⟨e, he⟩ | ⟨hold, hnold⟩
  · cases (he fs r (.refl fs)).symm.trans hsave
  · have hne := temporaryName_ne name
    rw [save_of_leads hold hs hne hnold] at hsave
    split at hsave
    · cases hsave
    · next hd =>
      obtain rfl := (Prod.mk.inj hsave).2
      have hkeeps := (Files.sameDirectories_moved r.fileBytes hne hnold hd).keeps
      rw [load, (ht.of_keepsDirectories hkeeps).find, Files.node?_moved_old]

/-- A store does not notice calls on another one in the same directory, unless its name is that of
the temporary file of the other one: then it has lost what it kept when the other one has kept
progress. The temporary file is never the kept one. -/
theorem answersOf_pair (hs : fs.Leads s.path directory p) (ht : fs.Leads t.path directory q)
    (hne : p ≠ q) :
    temporaryName p ≠ p ∧
    (∀ directory' old, fs.Leads s.temporary directory' old →
      directory' = directory ∧ old = temporaryName p) ∧
    (temporaryName p ≠ q → ∀ calls : List (Store × Call), (∀ sc ∈ calls, sc.1 = s ∨ sc.1 = t) →
      answersOf t fs calls = t.answers fs (callsOf t calls)) ∧
    (temporaryName p = q → ∀ r fs', s.save r fs = (.ok (), fs') → t.load fs' = .ok none) := by
  refine ⟨temporaryName_ne p, fun _ _ => leads_temporary hs, fun htemporary calls hcalls => ?_, ?_⟩
  · refine answersOf_of_alike ht (.refl directory q fs) fun sc hsc => ?_
    exact (hcalls sc hsc).symm.imp_right fun (he : sc.1 = s) => ⟨p, he ▸ hs, hne, htemporary⟩
  · rintro rfl r fs' hsave
    exact load_of_save_temporary hs ht hsave

/-- Two stores that share the name of their temporary files. -/
theorem answersOf_pair_of_shared :
    let s : Store := ⟨["a.json"]⟩
    let t : Store := ⟨["a.ckpt"]⟩
    let now : Instant := ⟨⟨2024, 2, 29⟩, 3600, 0⟩
    let r : Progress := ⟨"", now, now, .empty⟩
    let calls : List (Store × Call) :=
      [(s, .save r), (t, .save r), (s, .clear), (t, .load), (s, .save r), (t, .clear), (t, .load)]
    Files.empty.Leads s.path [] "a.json" ∧ Files.empty.Leads t.path [] "a.ckpt" ∧
      temporaryName "a.json" = temporaryName "a.ckpt" ∧ temporaryName "a.json" ≠ "a.ckpt" ∧
      answersOf t .empty calls = t.answers .empty [.save r, .load, .clear, .load] := by
  intro s t now r calls
  have hs : Files.empty.Leads s.path [] "a.json" := Files.leads_of_isName _ (by decide)
  have ht : Files.empty.Leads t.path [] "a.ckpt" := Files.leads_of_isName _ (by decide)
  have hne : temporaryName "a.json" ≠ "a.ckpt" := by decide
  have hcalls : ∀ sc ∈ calls, sc.1 = s ∨ sc.1 = t := by simp [calls]
  exact ⟨hs, ht, by decide, hne, (answersOf_pair hs ht (by decide)).2.2.1 hne calls hcalls⟩

/-- A store whose name is that of the temporary file of another one. -/
theorem answersOf_of_temporary :
    let s : Store := ⟨["x.json"]⟩
    let t : Store := ⟨["x.json.tmp"]⟩
    let now : Instant := ⟨⟨2024, 2, 29⟩, 3600, 0⟩
    let r : Progress := ⟨"", now, now, .empty⟩
    let calls : List (Store × Call) := [(t, .save r), (s, .save r), (t, .load)]
    Files.empty.Leads s.path [] "x.json" ∧ Files.empty.Leads t.path [] "x.json.tmp" ∧
      (s.call (t.call .empty (.save r)).2 (.save r)).1 = .done (.ok ()) ∧
      answersOf t .empty calls = [.done (.ok ()), .found (.ok none)] ∧
      t.answers .empty (callsOf t calls) = [.done (.ok ()), .found (.ok (some r))] := by
  intro s t now r calls
  have hs : Files.empty.Leads s.path [] "x.json" := Files.leads_of_isName _ (by decide)
  have ht : Files.empty.Leads t.path [] "x.json.tmp" := Files.leads_of_isName _ (by decide)
  have hr : r.IsSound := by
    refine ⟨⟨?_, ?_, ?_, ?_⟩, ⟨?_, ?_, ?_, ?_⟩⟩ <;> decide
  have htemporary : Path.isName "x.json.json.tmp" := by decide
  have hready : t.Ready .empty := ready_empty htemporary (by decide) (by decide) (by decide)
  obtain ⟨fs₁, hsave₁, -, hfind⟩ := hready.save r
  -- There are no directories, so the first store is ready as well.
  have hfile (name : String) : fs₁.node? ([] ++ [name]) ≠ some .directory := by
    have hsame : Files.empty.SameDirectories (t.call .empty (.save r)).2 := (call_frame ht _).1
    rw [call, hsave₁] at hsame
    intro hd
    cases (hsame.node?_iff _).mpr hd
  have hs₁ : fs₁.Leads s.path [] "x.json" := Files.leads_of_isName fs₁ (by decide)
  have ht₁ : fs₁.Leads t.path [] (temporaryName "x.json") := Files.leads_of_isName fs₁ (by decide)
  have hready₁ : s.Ready fs₁ := ⟨[], _, _, ht₁, hs₁, by decide, hfile _, hfile _⟩
  obtain ⟨fs₂, hsave₂, -, -⟩ := hready₁.save r
  have hlost : t.load fs₂ = .ok none := load_of_save_temporary hs₁ ht₁ hsave₂
  have hcalls : callsOf t calls = [.save r, .load] := rfl
  have hfirst : t.call .empty (.save r) = (.done (.ok ()), fs₁) := by rw [call, hsave₁]
  have hsecond : s.call fs₁ (.save r) = (.done (.ok ()), fs₂) := by rw [call, hsave₂]
  refine ⟨hs, ht, ?_, ?_, ?_⟩
  · rw [hfirst, hsecond]
  · rw [answersOf_cons_self, hfirst, answersOf_cons_of_ne (by decide), hsecond,
      answersOf_cons_self, call, hlost]
    rfl
  · rw [hcalls, answers, hfirst, answers, call, load_of_find hfind hr]
    rfl

end Store

end ParamSweep
