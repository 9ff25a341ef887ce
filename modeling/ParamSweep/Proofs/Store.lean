import ParamSweep.Proofs.Files
import ParamSweep.Proofs.Progress
import ParamSweep.Store

/-! # What a store keeps

A store that has once kept progress can go on to do so: the directory of its file stays,
and neither the file nor the temporary one becomes a directory. What it kept last it
loads again.
-/

namespace ParamSweep.Store

variable {s : Store} {fs fs' : Files} {p : Progress}

/-- How many runs with a key have finished by what is kept; none if nothing is. -/
def stored (s : Store) (fs : Files) (key : String) : Nat :=
  match s.load fs with
  | .ok (some p) => p.done key
  | _ => 0

/-- Both paths of a store lead to names in one directory, which are no names of directories. -/
def Ready (s : Store) (fs : Files) : Prop :=
  ∃ directory old new, fs.Leads s.temporary directory old ∧ fs.Leads s.path directory new ∧
    old ≠ new ∧ fs.node? (directory ++ [old]) ≠ some .directory ∧
    fs.node? (directory ++ [new]) ≠ some .directory

theorem ready_empty {old new : String} (hold : Path.isName old) (hnew : Path.isName new)
    (hne : old ≠ new) (htemporary : temporary ⟨[new]⟩ = [old]) : Ready ⟨[new]⟩ .empty := by
  refine ⟨[], old, new, ?_, Files.leads_of_isName _ hnew, hne, nofun, nofun⟩
  rw [htemporary]
  exact Files.leads_of_isName _ hold

theorem ready_progress : Ready ⟨["progress.json"]⟩ .empty := by
  have htemporary : Path.isName "progress.json.tmp" := by decide
  exact ready_empty htemporary (by decide) (by decide) (by decide)

theorem load_empty {name : String} (h : Path.isName name) :
    load ⟨[name]⟩ .empty = .ok none := by
  rw [load, (Files.leads_of_isName .empty h).find]
  rfl

def temporaryName (name : String) : String := Path.stem name ++ "." ++ "json.tmp"

theorem temporaryName_ne (name : String) : temporaryName name ≠ name :=
  Path.stem_append_ne (by decide)

theorem temporary_of_leads {directory : Location} {name : String}
    (h : fs.Leads s.path directory name) : ∃ before, fs.walk [] before = .ok directory ∧
      s.temporary = before ++ [if Path.stem name = "." then ".." else temporaryName name] := by
  obtain ⟨-, hstroke, before, hends, hwalk⟩ := Files.locate_eq_ok_iff.mp h.locate
  refine ⟨before, hwalk, ?_⟩
  rw [temporary, hends.eq_concat (by simpa using hstroke.symm)]
  exact Path.withExtension_concat _ hends.not_isIdle hends.ne_up

theorem leads_temporary {directory directory' : Location} {name old : String}
    (h : fs.Leads s.path directory name) (hold : fs.Leads s.temporary directory' old) :
    directory' = directory ∧ old = temporaryName name := by
  obtain ⟨before, hwalk, htemporary⟩ := temporary_of_leads h
  obtain ⟨-, -, before', hends, hwalk'⟩ := Files.locate_eq_ok_iff.mp hold.locate
  obtain ⟨hempty, -, -⟩ := Path.append_extension_ne (Path.stem name)
    (show 2 ≤ "json.tmp".length by decide)
  rw [htemporary] at hends
  split at hends
  · obtain ⟨rfl, -, -, hup⟩ := (Path.endsIn_concat (by decide)).mp hends
    exact absurd rfl hup
  · obtain ⟨rfl, rfl, -, -⟩ := (Path.endsIn_concat hempty).mp hends
    exact ⟨Except.ok.inj (hwalk'.symm.trans hwalk), rfl⟩

theorem ready_of_save (h : (s.save p fs).1 = .ok ()) : s.Ready fs := by
  rw [save] at h
  split at h
  · cases h
  · next fs₁ hwrite =>
    split at h
    · cases h
    · next fs₂ hrename =>
      obtain ⟨directory, old, hold, hnold, rfl⟩ := Files.leads_of_write hwrite
      obtain ⟨directory', new, hnew₁, hnnew⟩ := Files.leads_of_rename hrename
      have hnew := hnew₁.of_keepsDirectories (Files.sameDirectories_put p.fileBytes hnold).kept
      obtain ⟨rfl, rfl⟩ := leads_temporary hnew hold
      refine ⟨directory, _, new, hold, hnew, temporaryName_ne new, hnold, ?_⟩
      rwa [Files.node?_put_of_ne _ _ (temporaryName_ne new)] at hnnew

theorem save_of_leads {directory : Location} {old new : String}
    (hold : fs.Leads s.temporary directory old) (hnew : fs.Leads s.path directory new)
    (hne : old ≠ new) (hnold : fs.node? (directory ++ [old]) ≠ some .directory) (p : Progress) :
    s.save p fs = if fs.node? (directory ++ [new]) = some .directory
      then (.error (.io .isADirectory), fs.put (directory ++ [old]) (.file p.fileBytes))
      else (.ok (), fs.moved directory old new p.fileBytes) := by
  have hkeeps := (Files.sameDirectories_put p.fileBytes hnold).keeps
  rw [save, hold.write, if_neg hnold]
  dsimp only
  rw [(hold.of_keepsDirectories hkeeps).rename (hnew.of_keepsDirectories hkeeps)
    (Files.node?_put ..) hne, Files.node?_put_of_ne _ _ hne]
  by_cases hnnew : fs.node? (directory ++ [new]) = some .directory
  · rw [if_pos hnnew, if_pos hnnew]
  · rw [if_neg hnnew, if_neg hnnew]
    rfl

/-- A store that is ready keeps progress, and stays ready. -/
theorem Ready.save (h : s.Ready fs) (p : Progress) :
    ∃ fs', s.save p fs = (.ok (), fs') ∧ s.Ready fs' ∧
      fs'.find s.path = .ok (.file p.fileBytes) := by
  obtain ⟨directory, old, new, hold, hnew, hne, hnold, hnnew⟩ := h
  have hkeeps := (Files.sameDirectories_moved p.fileBytes hne hnold hnnew).keeps
  have hfile := Files.node?_moved_new p.fileBytes fs directory hne
  have hgone := Files.node?_moved_old p.fileBytes fs directory old new
  refine ⟨fs.moved directory old new p.fileBytes, ?_, ⟨directory, old, new,
    hold.of_keepsDirectories hkeeps, hnew.of_keepsDirectories hkeeps, hne, by simp [hgone],
    by simp [hfile]⟩, ?_⟩
  · rw [save_of_leads hold hnew hne hnold, if_neg hnnew]
  · rw [(hnew.of_keepsDirectories hkeeps).find, hfile]

theorem Ready.save_eq_ok (h : s.Ready fs) (p : Progress) : (s.save p fs).1 = .ok () := by
  obtain ⟨fs', hfs', -⟩ := h.save p
  rw [hfs']

theorem Ready.clear (h : s.Ready fs) :
    ∃ fs', s.clear fs = .ok fs' ∧ s.Ready fs' ∧ fs'.find s.path = .error .notFound := by
  obtain ⟨directory, old, new, hold, hnew, hne, hnold, hnnew⟩ := h
  rw [Store.clear, hnew.remove]
  cases hnode : fs.node? (directory ++ [new]) with
  | none =>
    refine ⟨fs, rfl, ⟨directory, old, new, hold, hnew, hne, hnold, hnnew⟩, ?_⟩
    rw [hnew.find, hnode]
  | some node =>
    cases node with
    | directory => exact absurd hnode hnnew
    | file bytes =>
      have hkeeps := (Files.sameDirectories_erase hnnew).keeps
      have hgone := Files.node?_erase fs directory new
      have hsame := Files.node?_erase_of_ne fs directory hne.symm
      refine ⟨_, rfl, ⟨directory, old, new, hold.of_keepsDirectories hkeeps,
        hnew.of_keepsDirectories hkeeps, hne, hsame ▸ hnold, by simp [hgone]⟩, ?_⟩
      rw [(hnew.of_keepsDirectories hkeeps).find, hgone]

/-- A store that fails to keep progress leaves what it kept. -/
theorem find_of_save_eq_error {e : StoreError} (h : (s.save p fs).1 = .error e) :
    (s.save p fs).2.find s.path = fs.find s.path := by
  rw [save] at h ⊢
  split
  · rfl
  · next fs₁ hwrite =>
    split
    · obtain ⟨directory, old, hold, hnold, rfl⟩ := Files.leads_of_write hwrite
      obtain ⟨-, -, before, hends, hwalk⟩ := Files.locate_eq_ok_iff.mp hold.locate
      obtain ⟨name, idle, hpath, hidle, hn, hup, rfl⟩ := Path.withExtension_endsIn hends
      rw [hpath]
      exact Files.find_put_of_ne hidle hn hup hwalk hnold (Path.stem_append_ne (by decide))
    · next hrename =>
      rw [hwrite] at h
      simp only [hrename] at h
      cases h

theorem isSound_of_load (h : s.load fs = .ok (some p)) : p.IsSound := by
  rw [load] at h
  split at h
  · cases Except.ok.inj h
  · cases h
  · next node _ =>
    cases node with
    | directory => exact nomatch h
    | file bytes =>
      cases hd : Progress.decoder.decode bytes with
      | error e =>
        rw [Files.decodeNode, hd] at h
        cases h
      | ok q =>
        rw [Files.decodeNode, hd] at h
        obtain rfl := Option.some.inj (Except.ok.inj h)
        exact Progress.isSound_of_decode hd

theorem load_of_find (h : fs.find s.path = .ok (.file p.fileBytes)) (hp : p.IsSound) :
    s.load fs = .ok (some p) := by
  rw [load, h]
  simp only [Files.decodeNode, Progress.decode_fileBytes hp]
  rfl

end ParamSweep.Store
