import ParamSweep.Json.Decoder
import ParamSweep.Proofs.Except

/-! # The fields of a record

A member of an object fills the slot of its name. Every value of a record that is decoded
is one that the decoder of its field gave, or the default of the field.
-/

namespace ParamSweep.Json

def Tree.children : Tree → List Tree
  | .array items _ => items
  | .object members _ => members.map Prod.snd
  | _ => []

namespace Decoder

theorem eq_of_name {t : Tree} {k : String} (h : name t = .ok k) : t = .string k := by
  unfold name at h
  split at h
  · rw [Except.ok.inj h]
  · cases h
  · cases h

theorem eq_none_of_check {fault? : Option Fault} {u : Unit} (h : check fault? = .ok u) :
    fault? = none := by
  cases fault? with
  | none => rfl
  | some f => cases h

end Decoder

namespace Fields

section Put

variable {α : Type} {ts : List Type} {fields : Fields ts} {k name : String} {decode : Decoder α}
  {default : Option α} {t : Tree}

theorem put?_self {a : α} {slots : Slots ts} (h : decode t = .ok a) :
    (Fields.cons name decode default fields).put? name t (none, slots) =
      some (.ok (some a, slots)) := by
  rw [Fields.put?, if_pos rfl, h]
  rfl

theorem put?_next {slot : Option α} {slots slots' : Slots ts} (hk : k ≠ name)
    (h : fields.put? k t slots = some (.ok slots')) :
    (Fields.cons name decode default fields).put? k t (slot, slots) =
      some (.ok (slot, slots')) := by
  rw [Fields.put?, if_neg hk, h]
  rfl

theorem ofMembers_cons {unknown : Unknown} {slots slots' : Slots ts}
    (h : fields.put? k t slots = some (.ok slots')) (ms : List (Tree × Tree)) :
    fields.ofMembers unknown ((.string k, t) :: ms) slots = fields.ofMembers unknown ms slots' := by
  rw [Fields.ofMembers, Decoder.name, ok_bind]
  simp only [h]
  rfl

theorem ofMembers_skip {slots : Slots ts} (h : fields.put? k t slots = none)
    (ht : Decoder.check t.skipFault? = .ok ()) (ms : List (Tree × Tree)) :
    fields.ofMembers .skipped ((.string k, t) :: ms) slots =
      fields.ofMembers .skipped ms slots := by
  rw [Fields.ofMembers, Decoder.name, ok_bind]
  simp only [h, ht]
  rfl

/-- A value goes into the empty slot of the first field, or into one of the others. -/
theorem put?_eq_ok {slot : Option α} {slots : Slots ts} {next : Slots (α :: ts)}
    (h : (Fields.cons name decode default fields).put? k t (slot, slots) = some (.ok next)) :
    (k = name ∧ slot = none ∧ ∃ a, decode t = .ok a ∧ next = (some a, slots)) ∨
      (k ≠ name ∧ ∃ slots', fields.put? k t slots = some (.ok slots') ∧ next = (slot, slots')) := by
  rw [put?] at h
  split at h
  · next hk =>
    cases slot with
    | some a => cases h
    | none =>
      obtain ⟨a, ha, hnext⟩ := bind_eq_ok.mp (Option.some.inj h)
      exact .inl ⟨hk, rfl, a, ha, (Except.ok.inj hnext).symm⟩
  · next hk =>
    obtain ⟨r, hr, hbind⟩ := Option.map_eq_some_iff.mp h
    obtain ⟨slots', rfl, hnext⟩ := bind_eq_ok.mp hbind
    exact .inr ⟨hk, slots', hr, (Except.ok.inj hnext).symm⟩

theorem ofMembers_eq_ok {unknown : Unknown} {key : Tree} {ms : List (Tree × Tree)}
    {slots slots' : Slots ts} (h : fields.ofMembers unknown ((key, t) :: ms) slots = .ok slots') :
    ∃ k, key = .string k ∧
      ((∃ next, fields.put? k t slots = some (.ok next) ∧
        fields.ofMembers unknown ms next = .ok slots') ∨
      (unknown = .skipped ∧ fields.ofMembers unknown ms slots = .ok slots')) := by
  obtain ⟨k, hname, hrest⟩ := bind_eq_ok.mp h
  refine ⟨k, Decoder.eq_of_name hname, ?_⟩
  split at hrest
  · next r hr =>
    obtain ⟨next, rfl, hms⟩ := bind_eq_ok.mp hrest
    exact .inl ⟨next, hr, hms⟩
  · split at hrest
    · cases hrest
    · obtain ⟨-, -, hms⟩ := bind_eq_ok.mp hrest
      exact .inr ⟨rfl, hms⟩

theorem ofItems_nil_eq_ok {title : String} {total : Nat} {cut : Option Fault} {rest : List Tree}
    {values : Values (α :: ts)}
    (h : (Fields.cons name decode default fields).ofItems title total cut [] =
      .ok (values, rest)) :
    ∃ a as, default = some a ∧ fields.ofItems title total cut [] = .ok (as, rest) ∧
      values = (a, as) := by
  obtain ⟨-, -, hdefault⟩ := bind_eq_ok.mp h
  cases default with
  | none => cases hdefault
  | some a =>
    obtain ⟨⟨as, r⟩, has, hend⟩ := bind_eq_ok.mp hdefault
    obtain ⟨rfl, rfl⟩ := Prod.mk.inj (Except.ok.inj hend)
    exact ⟨a, as, rfl, has, rfl⟩

theorem ofItems_cons_eq_ok {title : String} {total : Nat} {cut : Option Fault}
    {items rest : List Tree} {values : Values (α :: ts)}
    (h : (Fields.cons name decode default fields).ofItems title total cut (t :: items) =
      .ok (values, rest)) :
    ∃ a as, decode t = .ok a ∧ fields.ofItems title total cut items = .ok (as, rest) ∧
      values = (a, as) := by
  obtain ⟨a, ha, hrest⟩ := bind_eq_ok.mp h
  obtain ⟨⟨as, r⟩, has, hend⟩ := bind_eq_ok.mp hrest
  obtain ⟨rfl, rfl⟩ := Prod.mk.inj (Except.ok.inj hend)
  exact ⟨a, as, ha, has, rfl⟩

end Put

/-- Whether every value is the default of its field or was decoded for it from one of some
trees. -/
def Decoded (trees : List Tree) : {ts : List Type} → Fields ts → Values ts → Prop
  | [], .nil, () => True
  | _ :: _, .cons _ decode default fields, (a, as) =>
    (default = some a ∨ ∃ t ∈ trees, decode t = .ok a) ∧ fields.Decoded trees as

/-- Whether every value that has been met was decoded for its field from one of some trees. -/
def Met (trees : List Tree) : {ts : List Type} → Fields ts → Slots ts → Prop
  | [], .nil, () => True
  | _ :: _, .cons _ decode _ fields, (slot, slots) =>
    (∀ a, slot = some a → ∃ t ∈ trees, decode t = .ok a) ∧ fields.Met trees slots

section Decoded

variable {trees : List Tree}

theorem met_empty {ts : List Type} (fields : Fields ts) : fields.Met trees fields.empty := by
  induction fields with
  | nil => trivial
  | cons name decode default fields ih => exact ⟨nofun, ih⟩

theorem Met.put? {ts : List Type} {fields : Fields ts} {k : String} {t : Tree}
    {slots slots' : Slots ts} (h : fields.Met trees slots) (ht : t ∈ trees)
    (hp : fields.put? k t slots = some (.ok slots')) : fields.Met trees slots' := by
  induction fields with
  | nil => exact nomatch hp
  | cons name decode default fields ih =>
    obtain ⟨slot, slots⟩ := slots
    obtain ⟨hslot, hslots⟩ := h
    rcases put?_eq_ok hp with ⟨-, -, a, ha, rfl⟩ | ⟨-, next, hnext, rfl⟩
    · exact ⟨fun b hb => ⟨t, ht, Option.some.inj hb ▸ ha⟩, hslots⟩
    · exact ⟨hslot, ih hslots hnext⟩

theorem Met.ofMembers {ts : List Type} {fields : Fields ts} {unknown : Unknown}
    {ms : List (Tree × Tree)} {slots slots' : Slots ts} (h : fields.Met trees slots)
    (ht : ∀ m ∈ ms, m.2 ∈ trees) (hm : fields.ofMembers unknown ms slots = .ok slots') :
    fields.Met trees slots' := by
  induction ms generalizing slots with
  | nil =>
    obtain rfl := Except.ok.inj hm
    exact h
  | cons m ms ih =>
    obtain ⟨ht, hts⟩ := List.forall_mem_cons.mp ht
    obtain ⟨k, -, ⟨next, hnext, hms⟩ | ⟨-, hms⟩⟩ := ofMembers_eq_ok hm
    · exact ih (h.put? ht hnext) hts hms
    · exact ih h hts hms

theorem Met.complete {ts : List Type} {fields : Fields ts} {slots : Slots ts}
    {values : Values ts} (h : fields.Met trees slots) (hc : fields.complete slots = .ok values) :
    fields.Decoded trees values := by
  induction fields with
  | nil => trivial
  | cons name decode default fields ih =>
    obtain ⟨slot, slots⟩ := slots
    obtain ⟨hslot, hslots⟩ := h
    rw [Fields.complete] at hc
    split at hc
    · next a ha =>
      obtain ⟨as, has, hc⟩ := bind_eq_ok.mp hc
      obtain rfl := Except.ok.inj hc
      refine ⟨?_, ih hslots has⟩
      rcases Option.or_eq_some_iff.mp ha with ha | ⟨-, ha⟩
      · exact .inr (hslot a ha)
      · exact .inl ha
    · cases hc

theorem decoded_of_ofItems {ts : List Type} {fields : Fields ts} {title : String} {total : Nat}
    {cut : Option Fault} {items rest : List Tree} {values : Values ts}
    (ht : ∀ t ∈ items, t ∈ trees) (h : fields.ofItems title total cut items = .ok (values, rest)) :
    fields.Decoded trees values := by
  induction fields generalizing items rest with
  | nil => trivial
  | cons name decode default fields ih =>
    cases items with
    | nil =>
      obtain ⟨a, as, ha, has, rfl⟩ := ofItems_nil_eq_ok h
      exact ⟨.inl ha, ih ht has⟩
    | cons t items =>
      obtain ⟨a, as, ha, has, rfl⟩ := ofItems_cons_eq_ok h
      obtain ⟨ht, hts⟩ := List.forall_mem_cons.mp ht
      exact ⟨.inr ⟨t, ht, ha⟩, ih hts has⟩

end Decoded

end Fields

theorem Decoder.wrongType_ne_ok {α : Type} (expected : String) (t : Tree) (a : α) :
    wrongType expected t ≠ .ok a := by
  rw [wrongType]
  cases found t with
  | error e => exact nofun
  | ok f => exact nofun

theorem Decoder.decode_eq_ok {α : Type} {decoder : Decoder α} {bs : List UInt8} {a : α} :
    decoder.decode bs = .ok a ↔ ∃ t, read bs = (t, none) ∧ decoder t = .ok a := by
  rw [decode]
  obtain ⟨t, excess⟩ := read bs
  constructor
  · intro h
    obtain ⟨b, hb, h⟩ := bind_eq_ok.mp h
    obtain ⟨_, hcheck, h⟩ := bind_eq_ok.mp h
    obtain rfl := Except.ok.inj h
    cases excess with
    | none => exact ⟨t, rfl, hb⟩
    | some f => cases hcheck
  · rintro ⟨u, hu, ha⟩
    obtain ⟨rfl, rfl⟩ := Prod.mk.inj hu
    exact bind_eq_ok.mpr ⟨a, ha, rfl⟩

theorem Decoder.double_eq_ok {t : Tree} {x : Binary64} :
    double t = .ok x ↔ ∃ n : Number, t = .number n ∧ n.toDouble = x := by
  constructor
  · intro h
    unfold double at h
    split at h
    · next n => exact ⟨n, rfl, Except.ok.inj h⟩
    · exact absurd h (wrongType_ne_ok _ _ _)
  · rintro ⟨n, rfl, rfl⟩
    rfl

/-- A record that is decoded is an object or an array of its fields. -/
theorem Decoder.record_eq_ok {α : Type} {ts : List Type} {title : String}
    {unknown : Fields.Unknown} {fields : Fields ts} {make : Fields.Values ts → α} {t : Tree} {x : α}
    (h : record title unknown fields make t = .ok x) :
    ∃ values, make values = x ∧
      ((∃ ms slots, t = .object ms none ∧
        fields.ofMembers unknown ms fields.empty = .ok slots ∧
        fields.complete slots = .ok values) ∨
      ∃ items, t = .array items none ∧
        fields.ofItems title ts.length none items = .ok (values, [])) := by
  unfold record at h
  split at h
  · next ms cut =>
    obtain ⟨slots, hslots, hrest⟩ := bind_eq_ok.mp h
    obtain ⟨_, hcut, hrest⟩ := bind_eq_ok.mp hrest
    obtain ⟨values, hvalues, hend⟩ := bind_eq_ok.mp hrest
    obtain rfl := eq_none_of_check hcut
    exact ⟨values, Except.ok.inj hend, .inl ⟨ms, slots, rfl, hslots, hvalues⟩⟩
  · next items cut =>
    obtain ⟨⟨values, rest⟩, hvalues, hnext⟩ := bind_eq_ok.mp h
    dsimp only at hnext
    split at hnext
    · next hrest =>
      obtain ⟨_, hcut, hend⟩ := bind_eq_ok.mp hnext
      obtain rfl := eq_none_of_check hcut
      obtain rfl := List.isEmpty_iff.mp hrest
      exact ⟨values, Except.ok.inj hend, .inr ⟨items, rfl, hvalues⟩⟩
    · obtain ⟨_, hthrow, -⟩ := bind_eq_ok.mp hnext
      cases hthrow
  · exact absurd h (wrongType_ne_ok title t x)

/-- A record that is decoded is made of values that were decoded from its parts. -/
theorem Decoder.decoded_of_record {α : Type} {ts : List Type} {title : String}
    {unknown : Fields.Unknown} {fields : Fields ts} {make : Fields.Values ts → α} {t : Tree} {x : α}
    (h : record title unknown fields make t = .ok x) :
    ∃ values, fields.Decoded t.children values ∧ make values = x := by
  obtain ⟨values, rfl, ⟨ms, slots, rfl, hslots, hvalues⟩ | ⟨items, rfl, hvalues⟩⟩ := record_eq_ok h
  · have hmet := fields.met_empty.ofMembers (fun m hm => List.mem_map_of_mem hm) hslots
    exact ⟨values, hmet.complete hvalues, rfl⟩
  · exact ⟨values, Fields.decoded_of_ofItems (fun _ ht => ht) hvalues, rfl⟩

theorem Decoder.map_of_items {α : Type} {decode : Decoder α} {ts : List Tree} {as : List α}
    (h : items decode ts = .ok as) : ts.map decode = as.map .ok := by
  induction ts generalizing as with
  | nil =>
    obtain rfl := Except.ok.inj h
    rfl
  | cons t ts ih =>
    obtain ⟨a, ha, h⟩ := bind_eq_ok.mp h
    obtain ⟨rest, hrest, h⟩ := bind_eq_ok.mp h
    obtain rfl := Except.ok.inj h
    rw [List.map_cons, List.map_cons, ha, ih hrest]

theorem Decoder.list_eq_ok {α : Type} {decode : Decoder α} {t : Tree} {as : List α}
    (h : list decode t = .ok as) : ∃ ts, t = .array ts none ∧ ts.map decode = as.map .ok := by
  unfold list at h
  split at h
  · next ts cut =>
    obtain ⟨bs, hbs, hnext⟩ := bind_eq_ok.mp h
    obtain ⟨_, hcut, hend⟩ := bind_eq_ok.mp hnext
    obtain rfl := eq_none_of_check hcut
    obtain rfl := Except.ok.inj hend
    exact ⟨ts, rfl, map_of_items hbs⟩
  · exact absurd h (wrongType_ne_ok _ _ _)

theorem Decoder.decoded_of_list {α : Type} {decode : Decoder α} {t : Tree} {as : List α}
    (h : list decode t = .ok as) : ∀ a ∈ as, ∃ c ∈ t.children, decode c = .ok a := by
  obtain ⟨ts, rfl, hmap⟩ := list_eq_ok h
  intro a ha
  have hmem : Except.ok a ∈ ts.map decode := hmap ▸ List.mem_map_of_mem ha
  exact List.mem_map.mp hmem

theorem Decoder.decoded_of_optional {α : Type} {decode : Decoder α} {t : Tree} {a : α}
    (h : optional decode t = .ok (some a)) : decode t = .ok a := by
  unfold optional at h
  split at h
  · cases h
  · obtain ⟨b, hb, h⟩ := bind_eq_ok.mp h
    obtain rfl := Option.some.inj (Except.ok.inj h)
    exact hb

theorem Decoder.choice_eq_ok {α : Type} {bare : String → Except Error α}
    {named : String → Decoder α} {t : Tree} {a : α} (h : choice bare named t = .ok a) :
    (∃ s, t = .string s ∧ bare s = .ok a) ∨
      ∃ k u, t = .object [(.string k, u)] none ∧ named k u = .ok a := by
  unfold choice at h
  split at h
  · exact .inl ⟨_, rfl, h⟩
  · obtain ⟨_, _, h⟩ := bind_eq_ok.mp h
    cases h
  · next name u ms cut =>
    obtain ⟨k, hname, hnext⟩ := bind_eq_ok.mp h
    obtain rfl := eq_of_name hname
    obtain ⟨b, hb, hend⟩ := bind_eq_ok.mp hnext
    dsimp only at hend
    split at hend
    · next hms =>
      obtain ⟨_, hcut, hend⟩ := bind_eq_ok.mp hend
      obtain rfl := eq_none_of_check hcut
      obtain rfl := List.isEmpty_iff.mp hms
      obtain rfl := Except.ok.inj hend
      exact .inr ⟨k, u, rfl, hb⟩
    · obtain ⟨_, hthrow, -⟩ := bind_eq_ok.mp hend
      cases hthrow
  all_goals cases h

theorem Decoder.decoded_of_choice {α : Type} {bare : String → Except Error α}
    {named : String → Decoder α} {t : Tree} {a : α} (h : choice bare named t = .ok a) :
    (∃ s, bare s = .ok a) ∨ ∃ s, ∃ c ∈ t.children, named s c = .ok a := by
  rcases choice_eq_ok h with ⟨s, -, hs⟩ | ⟨k, u, rfl, hu⟩
  · exact .inl ⟨s, hs⟩
  · exact .inr ⟨k, u, List.mem_cons_self, hu⟩

end ParamSweep.Json
