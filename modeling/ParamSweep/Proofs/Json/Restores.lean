import ParamSweep.Proofs.Json.Doubles

/-! # Restored values

What is written for a value is restored if it is decoded as the value and printed so that it
is read again. Lists, objects, records and named alternatives are restored if their parts
are, where a record may leave out a field whose value is the default.
-/

namespace ParamSweep.Json

theorem legibleItems_iff {js : List Json} : LegibleItems js ↔ ∀ j ∈ js, j.Legible := by
  induction js with
  | nil => simp [LegibleItems]
  | cons j js ih => simp [LegibleItems, ih]

theorem itemsDepth_le_iff {js : List Json} {d : Nat} :
    itemsDepth js ≤ d ↔ ∀ j ∈ js, j.depth ≤ d := by
  induction js with
  | nil => simp [itemsDepth]
  | cons j js ih => rw [itemsDepth, Nat.max_le, ih, List.forall_mem_cons]

theorem legibleMembers_iff {ms : List (String × Json)} :
    LegibleMembers ms ↔ ∀ m ∈ ms, m.2.Legible := by
  induction ms with
  | nil => simp [LegibleMembers]
  | cons m ms ih => simp [LegibleMembers, ih]

theorem membersDepth_le_iff {ms : List (String × Json)} {d : Nat} :
    membersDepth ms ≤ d ↔ ∀ m ∈ ms, m.2.depth ≤ d := by
  induction ms with
  | nil => simp [membersDepth]
  | cons m ms ih => rw [membersDepth, Nat.max_le, ih, List.forall_mem_cons]

mutual

theorem fault?_ofJson : (j : Json) → (Tree.ofJson j).fault? = none
  | .null | .bool _ | .number _ | .string _ => rfl
  | .array js => by rw [Tree.ofJson, Tree.fault?, itemsFault?_ofItems js, Option.none_or]
  | .object ms => by rw [Tree.ofJson, Tree.fault?, membersFault?_ofMembers ms, Option.none_or]

theorem itemsFault?_ofItems : (js : List Json) → Tree.itemsFault? (Tree.ofItems js) = none
  | [] => rfl
  | j :: js => by
    rw [Tree.ofItems, Tree.itemsFault?, fault?_ofJson j, Option.none_or, itemsFault?_ofItems js]

theorem membersFault?_ofMembers :
    (ms : List (String × Json)) → Tree.membersFault? (Tree.ofMembers ms) = none
  | [] => rfl
  | (_, j) :: ms => by
    have hname (s : String) : (Tree.string s).fault? = none := rfl
    rw [Tree.ofMembers, Tree.membersFault?, hname, Option.none_or, fault?_ofJson j,
      Option.none_or, membersFault?_ofMembers ms]

end

/-- A value that is restored from what is written for it, nested to at most a depth. -/
structure Restores {α : Type} (decode : Decoder α) (j : Json) (d : Nat) (a : α) : Prop where
  legible : j.Legible
  depth : j.depth ≤ d
  decode : decode (.ofJson j) = .ok a

namespace Restores

variable {α β : Type} {decode : Decoder α} {j : Json} {d : Nat} {a : α}

/-- What is restored is restored from its print. -/
theorem decodeString (h : Restores decode j d a) (hd : d ≤ depthLimit) (style : Style) :
    decode.decodeString (j.print style) = .ok a :=
  Decoder.decode_eq_ok.mpr ⟨_, read_print style h.legible (h.depth.trans hd), h.decode⟩

theorem mono (h : Restores decode j d a) {d' : Nat} (hd : d ≤ d') : Restores decode j d' a :=
  ⟨h.legible, h.depth.trans hd, h.decode⟩

theorem string (s : String) : Restores Decoder.string (.string s) 0 s :=
  ⟨trivial, Nat.le_refl 0, rfl⟩

theorem count (n : UInt64) : Restores Decoder.count (.nat n.toNat) 0 n := by
  have hn : n.toNat < 2 ^ 64 := n.toNat_lt
  have hbound : (0 : Int) ≤ n.toNat ∧ (n.toNat : Int) < UInt64.size :=
    ⟨Int.natCast_nonneg _, Int.ofNat_lt.mpr n.toNat_lt_size⟩
  refine ⟨Number.legible_int (by omega) (by omega), Nat.le_refl 0, ?_⟩
  show Decoder.count (.number (.int n.toNat)) = .ok n
  rw [Decoder.count, if_pos hbound, Int.toNat_natCast]
  exact congrArg Except.ok n.ofNat_toNat

theorem int64 (n : Int64) : Restores Decoder.int64 (.int n.toInt) 0 n := by
  have hn : n.toInt < 2 ^ 63 := n.toInt_lt
  refine ⟨Number.legible_int n.le_toInt (by omega), Nat.le_refl 0, ?_⟩
  show Decoder.int64 (.number (.int n.toInt)) = .ok n
  rw [Decoder.int64, if_pos ⟨n.minValue_le_toInt, n.toInt_le⟩]
  exact congrArg Except.ok n.ofInt_toInt

theorem double {x : Binary64} (h : x.RoundTrips) : Restores Decoder.double (.double x) 0 x := by
  rw [Json.double, if_pos (isFinite_of_roundTrips h)]
  exact ⟨Number.legible_double h, Nat.le_refl 0, rfl⟩

theorem list {f : α → Json} {as : List α} (h : ∀ a ∈ as, Restores decode (f a) d a) :
    Restores (Decoder.list decode) (.array (as.map f)) (d + 1) as := by
  refine ⟨?_, ?_, ?_⟩
  · exact legibleItems_iff.mpr (List.forall_mem_map.mpr fun a ha => (h a ha).legible)
  · exact Nat.succ_le_succ
      (itemsDepth_le_iff.mpr (List.forall_mem_map.mpr fun a ha => (h a ha).depth))
  · have hitems : Decoder.items decode (Tree.ofItems (as.map f)) = .ok as := by
      induction as with
      | nil => rfl
      | cons a as ih =>
        obtain ⟨ha, has⟩ := List.forall_mem_cons.mp h
        rw [List.map_cons, Tree.ofItems, Decoder.items, ha.decode, ok_bind, ih has]
        rfl
    rw [Tree.ofJson, Decoder.list, hitems]
    rfl

theorem pairs {f : α → Json} {as : List (String × α)}
    (h : ∀ e ∈ as, Restores decode (f e.2) d e.2) :
    Restores (Decoder.pairs decode) (.object (as.map fun (k, a) => (k, f a))) (d + 1) as := by
  refine ⟨?_, ?_, ?_⟩
  · exact legibleMembers_iff.mpr (List.forall_mem_map.mpr fun e he => (h e he).legible)
  · exact Nat.succ_le_succ
      (membersDepth_le_iff.mpr (List.forall_mem_map.mpr fun e he => (h e he).depth))
  · have hmembers : Decoder.members decode
        (Tree.ofMembers (as.map fun (k, a) => (k, f a))) = .ok as := by
      induction as with
      | nil => rfl
      | cons e as ih =>
        obtain ⟨he, hes⟩ := List.forall_mem_cons.mp h
        rw [List.map_cons, Tree.ofMembers, Decoder.members, Decoder.name, ok_bind, he.decode,
          ok_bind, ih hes]
        rfl
    rw [Tree.ofJson, Decoder.pairs, hmembers]
    rfl

theorem optional (h : Restores decode j d a) (hj : Tree.ofJson j ≠ .null) :
    Restores (Decoder.optional decode) j d (some a) := by
  refine ⟨h.legible, h.depth, ?_⟩
  unfold Decoder.optional
  split
  · contradiction
  · rw [h.decode]
    rfl

theorem bare {bare : String → Except Error α} {named : String → Decoder α} {s : String}
    (h : bare s = .ok a) : Restores (Decoder.choice bare named) (.string s) 0 a :=
  ⟨trivial, Nat.le_refl 0, h⟩

theorem named {bare : String → Except Error α} {named : String → Decoder α} {name : String}
    (h : Restores (named name) j d a) :
    Restores (Decoder.choice bare named) (.object [(name, j)]) (d + 1) a := by
  refine ⟨⟨h.legible, trivial⟩, ?_, ?_⟩
  · exact Nat.succ_le_succ (Nat.max_le.mpr ⟨h.depth, Nat.zero_le d⟩)
  · show Decoder.choice bare named (.object [(.string name, .ofJson j)] none) = .ok a
    rw [Decoder.choice, Decoder.name, ok_bind, h.decode]
    rfl

end Restores

namespace Fields

/-- The members that are written for the values of a record, in the order of the fields: a
value is restored from its member, or it has none and is the default. -/
inductive Written (d : Nat) : {ts : List Type} → Fields ts → List (String × Json) → Values ts → Prop
  | nil : Written d .nil [] ()
  | cons {α : Type} {ts : List Type} {fields : Fields ts} {ms : List (String × Json)}
      {as : Values ts} {name : String} {decode : Decoder α} {default : Option α} {j : Json} {a : α}
      (h : Restores decode j d a) (hs : fields.Written d ms as) :
      (Fields.cons name decode default fields).Written d ((name, j) :: ms) (a, as)
  | absent {α : Type} {ts : List Type} {fields : Fields ts} {ms : List (String × Json)}
      {as : Values ts} {name : String} {decode : Decoder α} {a : α} (hs : fields.Written d ms as) :
      (Fields.cons name decode (some a) fields).Written d ms (a, as)

variable {ts : List Type} {fields : Fields ts} {unknown : Unknown} {ms : List (String × Json)}

theorem ofMembers_next {α : Type} {name : String} {decode : Decoder α} {default : Option α}
    {slot : Option α} {slots slots' : Slots ts} (hn : name ∉ ms.map Prod.fst)
    (h : fields.ofMembers unknown (Tree.ofMembers ms) slots = .ok slots') :
    (Fields.cons name decode default fields).ofMembers unknown (Tree.ofMembers ms) (slot, slots) =
      .ok (slot, slots') := by
  induction ms generalizing slots with
  | nil =>
    obtain rfl := Except.ok.inj h
    rfl
  | cons m ms ih =>
    obtain ⟨k, j⟩ := m
    rw [List.map_cons, List.mem_cons, not_or] at hn
    rw [Tree.ofMembers] at h ⊢
    rw [Fields.ofMembers, Decoder.name, ok_bind] at h
    split at h
    · next r hr =>
      obtain ⟨next, rfl, h⟩ := bind_eq_ok.mp h
      exact (ofMembers_cons (put?_next (Ne.symm hn.1) hr) _).trans (ih hn.2 h)
    · next hr =>
      have hput : (Fields.cons name decode default fields).put? k (.ofJson j) (slot, slots) =
          none := by
        rw [Fields.put?, if_neg (Ne.symm hn.1), hr]
        rfl
      cases unknown with
      | refused => cases h
      | skipped =>
        obtain ⟨_, hskip, h⟩ := bind_eq_ok.mp h
        exact (ofMembers_skip hput hskip _).trans (ih hn.2 h)

theorem Written.names_sublist {d : Nat} {values : Values ts} (h : fields.Written d ms values) :
    (ms.map Prod.fst).Sublist fields.names := by
  induction h with
  | nil => exact .slnil
  | cons _ _ ih => exact ih.cons_cons _
  | absent _ ih => exact ih.cons _

theorem Written.ofMembers {d : Nat} {values : Values ts} (h : fields.Written d ms values)
    (hn : fields.names.Nodup) (unknown : Unknown) :
    ∃ slots, fields.ofMembers unknown (Tree.ofMembers ms) fields.empty = .ok slots ∧
      fields.complete slots = .ok values := by
  induction h with
  | nil => exact ⟨(), rfl, rfl⟩
  | @cons _ _ _ ms _ name _ _ _ a h hs ih =>
    obtain ⟨hname, hn⟩ := List.nodup_cons.mp hn
    obtain ⟨slots, hslots, hcomplete⟩ := ih hn
    have hms : name ∉ ms.map Prod.fst := fun hm => hname (hs.names_sublist.subset hm)
    refine ⟨(some a, slots), ?_, ?_⟩
    · exact (ofMembers_cons (put?_self h.decode) _).trans (ofMembers_next hms hslots)
    · rw [Fields.complete, Option.some_or, hcomplete]
      rfl
  | @absent _ _ _ ms _ name _ _ hs ih =>
    obtain ⟨hname, hn⟩ := List.nodup_cons.mp hn
    obtain ⟨slots, hslots, hcomplete⟩ := ih hn
    have hms : name ∉ ms.map Prod.fst := fun hm => hname (hs.names_sublist.subset hm)
    refine ⟨(none, slots), ofMembers_next hms hslots, ?_⟩
    rw [Fields.complete, Option.none_or, hcomplete]
    rfl

theorem Written.parts {d : Nat} {values : Values ts} (h : fields.Written d ms values) :
    ∀ m ∈ ms, m.2.Legible ∧ m.2.depth ≤ d := by
  induction h with
  | nil => exact nofun
  | cons h _ ih => exact List.forall_mem_cons.mpr ⟨⟨h.legible, h.depth⟩, ih⟩
  | absent _ ih => exact ih

end Fields

/-- A record is restored from the members that are written for it. -/
theorem Restores.record {α : Type} {ts : List Type} {fields : Fields ts} {d : Nat}
    {ms : List (String × Json)} {values : Fields.Values ts} (h : fields.Written d ms values)
    (hn : fields.names.Nodup) (title : String) (unknown : Fields.Unknown)
    (make : Fields.Values ts → α) :
    Restores (Decoder.record title unknown fields make) (.object ms) (d + 1) (make values) := by
  obtain ⟨slots, hslots, hcomplete⟩ := h.ofMembers hn unknown
  refine ⟨?_, ?_, ?_⟩
  · exact legibleMembers_iff.mpr fun m hm => (h.parts m hm).1
  · exact Nat.succ_le_succ (membersDepth_le_iff.mpr fun m hm => (h.parts m hm).2)
  · rw [Tree.ofJson, Decoder.record, hslots, ok_bind, Decoder.check, ok_bind, hcomplete]
    rfl

end ParamSweep.Json
