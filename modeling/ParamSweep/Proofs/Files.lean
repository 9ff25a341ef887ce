import ParamSweep.Files
import ParamSweep.Proofs.Except
import ParamSweep.Proofs.NameMap
import ParamSweep.Proofs.Path

/-! # Files at named paths

A path that ends in a name leads to a place in a directory, and to the same place as long
as all directories stay. There it reads, writes and renames a single node.
-/

namespace ParamSweep

theorem Location.text_append (directory : Location) (name : String) :
    Location.text (directory ++ [name]) = directory.text ++ "/" ++ name := by
  rw [Location.text, List.foldl_append]
  rfl

theorem Location.text_append_ne {directory : Location} {old new : String} (h : old ≠ new) :
    Location.text (directory ++ [old]) ≠ Location.text (directory ++ [new]) := by
  rw [text_append, text_append]
  intro he
  exact h (by simpa using he)

def Path.isName (part : String) : Bool :=
  !isIdle part && part != ".." && !part.toList.contains '\x00' && part.utf8ByteSize ≤ longestName

namespace Files

variable {fs fs' : Files}

theorem node?_append (fs : Files) (directory : Location) (name : String) :
    fs.node? (directory ++ [name]) = fs.nodes.get? (Location.text (directory ++ [name])) := by
  rw [node?, if_neg (by simp)]

theorem node?_put (fs : Files) (directory : Location) (name : String) (node : Node) :
    (fs.put (directory ++ [name]) node).node? (directory ++ [name]) = some node := by
  rw [node?_append]
  exact NameMap.get?_insert_self _ _ _

theorem node?_put_of_ne (fs : Files) (directory : Location) {old new : String} (h : old ≠ new)
    (node : Node) :
    (fs.put (directory ++ [old]) node).node? (directory ++ [new]) =
      fs.node? (directory ++ [new]) := by
  rw [node?_append, node?_append]
  exact NameMap.get?_insert_of_ne _ _ (Location.text_append_ne h.symm)

def KeepsDirectories (fs fs' : Files) : Prop :=
  ∀ l, fs.node? l = some .directory → fs'.node? l = some .directory

theorem KeepsDirectories.trans {fs'' : Files} (h : fs.KeepsDirectories fs')
    (h' : fs'.KeepsDirectories fs'') : fs.KeepsDirectories fs'' := fun l hl => h' l (h l hl)

theorem KeepsDirectories.of_get? {directory : Location} {name : String}
    (hne : fs.node? (directory ++ [name]) ≠ some .directory)
    (h : ∀ text, text ≠ Location.text (directory ++ [name]) →
      fs'.nodes.get? text = fs.nodes.get? text) : fs.KeepsDirectories fs' := by
  intro l hl
  rw [node?] at hl ⊢
  split
  · rfl
  · next hemp =>
    rw [if_neg hemp] at hl
    rw [h _ fun he => hne (by rw [node?_append, ← he, hl]), hl]

theorem keepsDirectories_put {directory : Location} {name : String} (node : Node)
    (hne : fs.node? (directory ++ [name]) ≠ some .directory) :
    fs.KeepsDirectories (fs.put (directory ++ [name]) node) :=
  .of_get? hne fun _ ht => NameMap.get?_insert_of_ne _ _ ht

theorem keepsDirectories_erase {directory : Location} {name : String}
    (hne : fs.node? (directory ++ [name]) ≠ some .directory) :
    fs.KeepsDirectories ⟨fs.nodes.erase (Location.text (directory ++ [name]))⟩ :=
  .of_get? hne fun _ ht => NameMap.get?_erase_of_ne _ ht

structure SameDirectories (fs fs' : Files) : Prop where
  keeps : fs.KeepsDirectories fs'
  kept : fs'.KeepsDirectories fs

theorem SameDirectories.refl (fs : Files) : fs.SameDirectories fs := ⟨fun _ => id, fun _ => id⟩

theorem SameDirectories.symm (h : fs.SameDirectories fs') : fs'.SameDirectories fs :=
  ⟨h.kept, h.keeps⟩

theorem SameDirectories.trans {fs'' : Files} (h : fs.SameDirectories fs')
    (h' : fs'.SameDirectories fs'') : fs.SameDirectories fs'' :=
  ⟨h.keeps.trans h'.keeps, h'.kept.trans h.kept⟩

theorem SameDirectories.node?_iff (h : fs.SameDirectories fs') (l : Location) :
    fs.node? l = some .directory ↔ fs'.node? l = some .directory :=
  ⟨h.keeps l, h.kept l⟩

theorem sameDirectories_put {directory : Location} {name : String} (bytes : List UInt8)
    (hne : fs.node? (directory ++ [name]) ≠ some .directory) :
    fs.SameDirectories (fs.put (directory ++ [name]) (.file bytes)) :=
  ⟨keepsDirectories_put _ hne,
    .of_get? (by rw [node?_put]; exact nofun) fun _ ht => (NameMap.get?_insert_of_ne _ _ ht).symm⟩

theorem node?_erase (fs : Files) (directory : Location) (name : String) :
    node? ⟨fs.nodes.erase (Location.text (directory ++ [name]))⟩ (directory ++ [name]) = none := by
  rw [node?_append, NameMap.get?_erase, if_pos rfl]

theorem node?_erase_of_ne (fs : Files) (directory : Location) {old new : String} (h : old ≠ new) :
    node? ⟨fs.nodes.erase (Location.text (directory ++ [old]))⟩ (directory ++ [new]) =
      fs.node? (directory ++ [new]) := by
  rw [node?_append, node?_append]
  exact NameMap.get?_erase_of_ne _ (Location.text_append_ne h.symm)

theorem sameDirectories_erase {directory : Location} {name : String}
    (hne : fs.node? (directory ++ [name]) ≠ some .directory) :
    fs.SameDirectories ⟨fs.nodes.erase (Location.text (directory ++ [name]))⟩ :=
  ⟨keepsDirectories_erase hne,
    .of_get? (by rw [node?_erase]; exact nofun) fun _ ht => (NameMap.get?_erase_of_ne _ ht).symm⟩

/-- The tree after a file was written under one name and then moved to another. -/
def moved (fs : Files) (directory : Location) (old new : String) (bytes : List UInt8) : Files :=
  ⟨((fs.put (directory ++ [old]) (.file bytes)).put (directory ++ [new]) (.file bytes)).nodes.erase
    (Location.text (directory ++ [old]))⟩

section Moved

variable {directory : Location} {old new name : String} (bytes : List UInt8)

theorem node?_moved_new (fs : Files) (directory : Location) (h : old ≠ new) :
    (fs.moved directory old new bytes).node? (directory ++ [new]) = some (.file bytes) := by
  rw [moved, node?_erase_of_ne _ _ h, node?_put]

theorem node?_moved_old (fs : Files) (directory : Location) (old new : String) :
    (fs.moved directory old new bytes).node? (directory ++ [old]) = none :=
  node?_erase _ _ _

theorem node?_moved_of_ne (fs : Files) (directory : Location) (hold : old ≠ name)
    (hnew : new ≠ name) :
    (fs.moved directory old new bytes).node? (directory ++ [name]) =
      fs.node? (directory ++ [name]) := by
  rw [moved, node?_erase_of_ne _ _ hold, node?_put_of_ne _ _ hnew, node?_put_of_ne _ _ hold]

theorem sameDirectories_moved (hne : old ≠ new)
    (hold : fs.node? (directory ++ [old]) ≠ some .directory)
    (hnew : fs.node? (directory ++ [new]) ≠ some .directory) :
    fs.SameDirectories (fs.moved directory old new bytes) := by
  have hnew' : (fs.put (directory ++ [old]) (.file bytes)).node? (directory ++ [new]) ≠
      some .directory := by rwa [node?_put_of_ne _ _ hne]
  have hold' : ((fs.put (directory ++ [old]) (.file bytes)).put (directory ++ [new])
      (.file bytes)).node? (directory ++ [old]) ≠ some .directory := by
    rw [node?_put_of_ne _ _ hne.symm, node?_put]
    exact nofun
  exact ((sameDirectories_put bytes hold).trans (sameDirectories_put bytes hnew')).trans
    (sameDirectories_erase hold')

end Moved

theorem walk_part {here : Location} {part : String} {parts : List String} {l : Location}
    (hidle : ¬ Path.isIdle part) (hup : part ≠ "..") :
    fs.walk here (part :: parts) = .ok l ↔ part.utf8ByteSize ≤ longestName ∧
      fs.node? (here ++ [part]) = some .directory ∧ fs.walk (here ++ [part]) parts = .ok l := by
  rw [walk, if_neg hidle, if_neg hup, child?]
  by_cases hlong : longestName < part.utf8ByteSize
  · rw [if_pos hlong]
    exact ⟨nofun, fun h => absurd h.1 (Nat.not_le_of_lt hlong)⟩
  · rw [if_neg hlong]
    cases hn : fs.node? (here ++ [part]) with
    | none => exact ⟨nofun, fun h => nomatch h.2.1⟩
    | some node =>
      cases node with
      | file bytes => exact ⟨nofun, fun h => nomatch h.2.1⟩
      | directory => exact ⟨fun h => ⟨Nat.le_of_not_lt hlong, rfl, h⟩, fun h => h.2.2⟩

theorem walk_append (here : Location) (parts rest : List String) :
    fs.walk here (parts ++ rest) = fs.walk here parts >>= fun l => fs.walk l rest := by
  induction parts generalizing here with
  | nil => rfl
  | cons part parts ih =>
    rw [List.cons_append, walk, walk]
    split
    · exact ih here
    · split
      · exact ih _
      · split
        · rfl
        · rfl
        · rfl
        · exact ih _

theorem walk_idle (here : Location) {idle : List String} (h : ∀ part ∈ idle, Path.isIdle part) :
    fs.walk here idle = .ok here := by
  induction idle with
  | nil => rfl
  | cons part idle ih =>
    rw [walk, if_pos (h part List.mem_cons_self)]
    exact ih fun part hp => h part (List.mem_cons_of_mem _ hp)

theorem walk_of_keepsDirectories (h : fs.KeepsDirectories fs') {here l : Location}
    {parts : List String} (hw : fs.walk here parts = .ok l) : fs'.walk here parts = .ok l := by
  induction parts generalizing here with
  | nil => exact hw
  | cons part parts ih =>
    by_cases hidle : Path.isIdle part
    · rw [walk, if_pos hidle] at hw ⊢
      exact ih hw
    · by_cases hup : part = ".."
      · rw [walk, if_neg hidle, if_pos hup] at hw ⊢
        exact ih hw
      · obtain ⟨hshort, hdir, hw⟩ := (walk_part hidle hup).mp hw
        exact (walk_part hidle hup).mpr ⟨hshort, h _ hdir, ih hw⟩

theorem locate_of_fault {p : Path} {e : IoError} (h : p.fault? = some e) :
    fs.locate p = .error e := by
  rw [locate, h]
  rfl

theorem locate_eq_ok_iff {p : Path} {directory : Location} {name : String} {stroke : Bool} :
    fs.locate p = .ok ⟨directory, some name, stroke⟩ ↔
      p.fault? = none ∧ stroke = (p.getLast? == some "") ∧
        ∃ before, p.EndsIn before name ∧ fs.walk [] before = .ok directory := by
  rw [locate]
  cases p.fault? with
  | some e => exact ⟨nofun, fun h => nomatch h.1⟩
  | none =>
    dsimp only
    split
    · next hnil =>
      constructor
      · exact nofun
      · rintro ⟨-, -, before, hends, -⟩
        rw [hends.split] at hnil
        cases hnil
    · next part rest hcons =>
      split
      · next hdots =>
        constructor
        · intro h
          obtain ⟨l, -, h⟩ := bind_eq_ok.mp h
          cases h
        · rintro ⟨-, -, before, hends, -⟩
          rw [hends.split] at hcons
          obtain ⟨rfl, -⟩ := List.cons.inj hcons
          exact (hdots.elim hends.ne_here hends.ne_up).elim
      · next hdots =>
        rw [not_or] at hdots
        constructor
        · intro h
          obtain ⟨l, hl, h⟩ := bind_eq_ok.mp h
          cases h
          exact ⟨rfl, rfl, rest.reverse, ⟨by rwa [List.reverse_reverse], hdots.1, hdots.2⟩, hl⟩
        · rintro ⟨-, rfl, before, hends, hw⟩
          rw [hends.split] at hcons
          obtain ⟨rfl, rfl⟩ := List.cons.inj hcons
          rw [List.reverse_reverse, hw]
          rfl

theorem locate_concat {before : List String} {directory : Location} {name : String}
    (hn : name ≠ "" ∧ name ≠ "." ∧ name ≠ "..") (hf : Path.fault? (before ++ [name]) = none)
    (hw : fs.walk [] before = .ok directory) :
    fs.locate (before ++ [name]) = .ok ⟨directory, some name, false⟩ := by
  obtain ⟨hempty, hhere, hup⟩ := hn
  refine locate_eq_ok_iff.mpr ⟨hf, ?_, before, (Path.endsIn_concat hempty).mpr
    ⟨rfl, rfl, hhere, hup⟩, hw⟩
  rw [List.getLast?_concat]
  exact (beq_eq_false_iff_ne.mpr (mt Option.some.inj hempty)).symm

/-- A path that leads to a name in a directory. -/
structure Leads (fs : Files) (p : Path) (directory : Location) (name : String) : Prop where
  locate : fs.locate p = .ok ⟨directory, some name, false⟩
  short : name.utf8ByteSize ≤ longestName

section Leads

variable {p q : Path} {directory directory' : Location} {name old new : String}

theorem Leads.of_keepsDirectories (h : fs.Leads p directory name) (hk : fs.KeepsDirectories fs') :
    fs'.Leads p directory name := by
  obtain ⟨hfault, hstroke, before, hends, hw⟩ := locate_eq_ok_iff.mp h.locate
  exact ⟨locate_eq_ok_iff.mpr ⟨hfault, hstroke, before, hends, walk_of_keepsDirectories hk hw⟩,
    h.short⟩

theorem leads_of_isName (fs : Files) (h : Path.isName name) : fs.Leads [name] [] name := by
  simp only [Path.isName, Bool.and_eq_true, Bool.not_eq_true', bne_iff_ne, decide_eq_true_eq,
    List.contains_eq_mem, decide_eq_false_iff_not] at h
  obtain ⟨⟨⟨hidle, hup⟩, hnul⟩, hshort⟩ := h
  obtain ⟨hempty, hhere⟩ := not_or.mp (mt Path.isIdle_iff.mpr (ne_true_of_eq_false hidle))
  have hfault : Path.fault? [name] = none := by
    have htext : Path.text [name] = name := rfl
    have hlong : ¬ longestPath < name.utf8ByteSize := by
      rw [longestName] at hshort
      rw [longestPath]
      omega
    rw [Path.fault?, htext, String.contains_char_eq, if_neg (by simpa using hnul), if_neg hlong,
      if_neg hempty]
  have hlocate : fs.locate ([] ++ [name]) = .ok ⟨[], some name, false⟩ :=
    locate_concat ⟨hempty, hhere, hup⟩ hfault rfl
  exact ⟨hlocate, hshort⟩

theorem child?_of_le {directory : Location} (h : name.utf8ByteSize ≤ longestName) :
    fs.child? directory name = .ok (fs.node? (directory ++ [name])) := by
  rw [child?, if_neg (Nat.not_lt_of_le h)]

theorem Leads.find (h : fs.Leads p directory name) :
    fs.find p = match fs.node? (directory ++ [name]) with
      | none => .error .notFound
      | some node => .ok node := by
  rw [Files.find, h.locate, ok_bind]
  dsimp only
  rw [child?_of_le h.short, ok_bind]
  cases fs.node? (directory ++ [name]) with
  | none => rfl
  | some node => cases node <;> rfl

theorem Leads.write (h : fs.Leads p directory name) (bytes : List UInt8) :
    fs.write p bytes = if fs.node? (directory ++ [name]) = some .directory then .error .isADirectory
      else .ok (fs.put (directory ++ [name]) (.file bytes)) := by
  rw [Files.write, h.locate, ok_bind]
  dsimp only
  rw [child?_of_le h.short, ok_bind]
  split
  · next hd =>
    rw [if_pos hd]
    rfl
  · next hd =>
    rw [if_neg hd]
    rfl

theorem Leads.remove (h : fs.Leads p directory name) :
    fs.remove p = match fs.node? (directory ++ [name]) with
      | none => .error .notFound
      | some .directory => .error .isADirectory
      | some (.file _) => .ok ⟨fs.nodes.erase (Location.text (directory ++ [name]))⟩ := by
  rw [Files.remove, h.locate, ok_bind]
  dsimp only
  rw [child?_of_le h.short, ok_bind]
  cases fs.node? (directory ++ [name]) with
  | none => rfl
  | some node => cases node <;> rfl

theorem short_of_child? {node? : Option Node} (h : fs.child? directory name = .ok node?) :
    name.utf8ByteSize ≤ longestName ∧ fs.node? (directory ++ [name]) = node? := by
  rw [child?] at h
  split at h
  · cases h
  · next hl => exact ⟨Nat.le_of_not_lt hl, Except.ok.inj h⟩

theorem leads_of_write {bytes : List UInt8} (h : fs.write p bytes = .ok fs') :
    ∃ directory name, fs.Leads p directory name ∧
      fs.node? (directory ++ [name]) ≠ some .directory ∧
      fs' = fs.put (directory ++ [name]) (.file bytes) := by
  obtain ⟨⟨directory, name?, stroke⟩, hl, h⟩ := bind_eq_ok.mp h
  dsimp only at h
  split at h
  · next name =>
    obtain ⟨node?, hn, h⟩ := bind_eq_ok.mp h
    obtain ⟨hshort, rfl⟩ := short_of_child? hn
    split at h
    · cases h
    · next hd => exact ⟨directory, name, ⟨hl, hshort⟩, hd, (Except.ok.inj h).symm⟩
  · cases h

theorem Leads.rename (h : fs.Leads p directory old) (h' : fs.Leads q directory new)
    {bytes : List UInt8} (hold : fs.node? (directory ++ [old]) = some (.file bytes))
    (hne : old ≠ new) :
    fs.rename p q =
      if fs.node? (directory ++ [new]) = some .directory then .error .isADirectory
      else .ok ⟨(fs.put (directory ++ [new]) (.file bytes)).nodes.erase
        (Location.text (directory ++ [old]))⟩ := by
  rw [Files.rename, h.locate, ok_bind, h'.locate, ok_bind]
  dsimp only
  rw [child?_of_le h.short, hold, ok_bind]
  dsimp only
  rw [child?_of_le h'.short, ok_bind]
  have hl : directory ++ [old] ≠ directory ++ [new] := by simpa using hne
  simp only [Bool.false_eq_true, or_self, if_false, if_neg hl]
  split <;> rfl

/-- A way through a name sees of the directory with the name nothing else. -/
theorem walk_eq_of_child? {before idle : List String} (hidle : ∀ part ∈ idle, Path.isIdle part)
    (hn : ¬ Path.isIdle name) (hup : name ≠ "..") (hw : fs.walk [] before = .ok directory)
    (hw' : fs'.walk [] before = .ok directory)
    (hchild : fs'.child? directory name = fs.child? directory name) :
    fs'.walk [] (before ++ name :: idle) = fs.walk [] (before ++ name :: idle) := by
  rw [walk_append, walk_append, hw, hw', ok_bind, ok_bind, walk, walk, if_neg hn, if_neg hn,
    if_neg hup, if_neg hup, hchild]
  split
  · rfl
  · rfl
  · rfl
  · rw [walk_idle _ hidle, walk_idle _ hidle]

theorem locate_of_dots {parts : List String} {dots : String} (hdots : dots = "." ∨ dots = "..")
    (hf : p.fault? = none) (hp : p.reverse.dropWhile (· == "") = dots :: parts.reverse) :
    fs.locate p = fs.walk [] (parts ++ [dots]) >>= fun l =>
      .ok ⟨l, none, p.getLast? == some ""⟩ := by
  rw [locate, hf, hp]
  dsimp only
  rw [if_pos hdots, List.reverse_reverse]
  rfl

/-- A path that leads to a name, up to parts that lead nowhere else, does not see what has another
name in the directory. -/
theorem find_put_of_ne {before idle : List String} {node : Node}
    (hidle : ∀ part ∈ idle, Path.isIdle part) (hn : ¬ Path.isIdle name) (hup : name ≠ "..")
    (hw : fs.walk [] before = .ok directory)
    (hold : fs.node? (directory ++ [old]) ≠ some .directory) (hne : old ≠ name) :
    (fs.put (directory ++ [old]) node).find (before ++ name :: idle) =
      fs.find (before ++ name :: idle) := by
  have hw' := walk_of_keepsDirectories (keepsDirectories_put node hold) hw
  have hchild : (fs.put (directory ++ [old]) node).child? directory name =
      fs.child? directory name := by
    rw [child?, child?, node?_put_of_ne _ _ hne]
  cases hf : Path.fault? (before ++ name :: idle) with
  | some e =>
    rw [Files.find, Files.find, locate_of_fault hf, locate_of_fault hf]
    rfl
  | none =>
    rcases Path.endsIn_or_dot hidle hn hup with hends | ⟨idle', hidle', hdot⟩
    · rw [Files.find, Files.find, locate_eq_ok_iff.mpr ⟨hf, rfl, before, hends, hw⟩,
        locate_eq_ok_iff.mpr ⟨hf, rfl, before, hends, hw'⟩, ok_bind, ok_bind]
      dsimp only
      rw [hchild]
    · -- The path goes on to a dot, so it asks for a directory of the name.
      have hparts : ∀ part ∈ idle' ++ ["."], Path.isIdle part := by
        simpa [or_imp, forall_and] using ⟨hidle', rfl⟩
      have hwalk := walk_eq_of_child? hparts hn hup hw hw' hchild
      rw [← List.cons_append, ← List.append_assoc] at hwalk
      rw [Files.find, Files.find, locate_of_dots (.inl rfl) hf hdot,
        locate_of_dots (.inl rfl) hf hdot, hwalk]
      cases fs.walk [] (before ++ name :: idle' ++ ["."]) <;> rfl

theorem leads_of_rename (h : fs.rename p q = .ok fs') :
    ∃ directory name, fs.Leads q directory name ∧
      fs.node? (directory ++ [name]) ≠ some .directory := by
  obtain ⟨⟨source, old?, stroke⟩, -, h⟩ := bind_eq_ok.mp h
  obtain ⟨⟨target, new?, stroke'⟩, hq, h⟩ := bind_eq_ok.mp h
  cases old? with
  | none => exact nomatch h
  | some old =>
    cases new? with
    | none => exact nomatch h
    | some new =>
      obtain ⟨node?, -, h⟩ := bind_eq_ok.mp h
      cases node? with
      | none => exact nomatch h
      | some node =>
        cases node with
        | directory => exact nomatch h
        | file bytes =>
          obtain ⟨there, hthere, h⟩ := bind_eq_ok.mp h
          obtain ⟨hshort, rfl⟩ := short_of_child? hthere
          dsimp only at h
          split at h
          · cases h
          · next hstroke =>
            rw [not_or, Bool.not_eq_true, Bool.not_eq_true] at hstroke
            obtain ⟨-, rfl⟩ := hstroke
            split at h
            · cases h
            · next hd => exact ⟨target, new, ⟨hq, hshort⟩, hd⟩

end Leads

end Files

end ParamSweep
