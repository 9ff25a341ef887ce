import ParamSweep.Proofs.Rereading
import ParamSweep.Proofs.Text.Order

/-! # Assignments and the order of insertion

However an assignment is made from a sequence of names and values, each name has the last value
that the sequence has for it. So what the assignment is, and all that is read off it, does not
depend on the order of different names or on values that were replaced.
-/

namespace ParamSweep

open Json (Decoder)

namespace NameMap

variable {α : Type} {es : List (String × α)} {name : String} {a : α}

/-- Whether a value is the last one that a sequence has for a name. -/
def IsLast (es : List (String × α)) (name : String) (a : α) : Prop :=
  ∃ before after, es = before ++ (name, a) :: after ∧ name ∉ after.map (·.1)

theorem get?_ofList_eq_some_iff : (ofList es).get? name = some a ↔ IsLast es name a := by
  have hfree (fs : List (String × α)) :
      (∀ e ∈ fs, (name != e.1) = true) ↔ name ∉ fs.reverse.map (·.1) := by
    rw [List.map_reverse, List.mem_reverse, ← List.forall_mem_ne, List.forall_mem_map]
    simp only [bne_iff_ne, ne_eq]
  rw [get?_ofList, List.lookup_eq_some_iff]
  constructor
  · rintro ⟨after, before, h, hafter⟩
    refine ⟨before.reverse, after.reverse, ?_, (hfree after).mp hafter⟩
    rw [List.reverse_eq_iff.mp h, List.reverse_append, List.reverse_cons, List.append_assoc,
      List.singleton_append]
  · rintro ⟨before, after, rfl, hafter⟩
    refine ⟨after.reverse, before.reverse, ?_, (hfree _).mpr (by rwa [List.reverse_reverse])⟩
    rw [List.reverse_append, List.reverse_cons, List.append_assoc, List.singleton_append]

theorem ofList_eq_iff {fs : List (String × α)} :
    ofList es = ofList fs ↔ ∀ name a, IsLast es name a ↔ IsLast fs name a := by
  constructor
  · intro h name a
    rw [← get?_ofList_eq_some_iff, h, get?_ofList_eq_some_iff]
  · intro h
    refine ext_get? fun name => Option.ext fun a => ?_
    rw [get?_ofList_eq_some_iff, get?_ofList_eq_some_iff, h]

theorem ofList_concat (es : List (String × α)) (name : String) (a : α) :
    ofList (es ++ [(name, a)]) = (ofList es).insert name a := by
  rw [ofList, List.foldl_concat, ← ofList]

theorem pairwise_names (m : NameMap α) : m.names.Pairwise (Decoder.bytes · < Decoder.bytes ·) :=
  List.pairwise_map.mpr (m.sorted.imp Text.lt_iff_bytes_lt.mp)

end NameMap

namespace Assignment

variable {es fs : List (String × Value)} {text : String} {a b : Assignment}

open NameMap (IsLast)

/-- Whether a text is a JSON object whose members are some names and values, in their order. -/
def IsObject (text : String) (es : List (String × Value)) : Prop :=
  ∃ ts, Json.read (Decoder.bytes text) = (.object ts none, none) ∧
    List.Forall₂ (fun t e => t.1 = .string e.1 ∧ Value.decoder t.2 = .ok e.2) ts es

/-- The ways to make an assignment from a sequence of names and values: to insert them one after
another, to collect them, and to read an object with these members. -/
inductive Made : List (String × Value) → Assignment → Prop
  | empty : Made [] .empty
  | insert {es : List (String × Value)} {a : Assignment} (name : String) (v : Value) :
      Made es a → Made (es ++ [(name, v)]) (a.insert name v)
  | collect (es : List (String × Value)) : Made es (.ofList es)
  | decode {es : List (String × Value)} {text : String} {a : Assignment} :
      IsObject text es → decoder.decodeString text = .ok a → Made es a

theorem decodeString_of_isObject (h : IsObject text es) :
    decoder.decodeString text = .ok (.ofList es) := by
  obtain ⟨ts, hread, hmembers⟩ := h
  refine Decoder.decode_eq_ok.mpr ⟨_, hread, ?_⟩
  rw [decoder, Decoder.pairs, Decoder.members_eq_ok_iff.mpr hmembers]
  rfl

theorem isObject_print (h : ∀ e ∈ es, ∀ x ∈ e.2.doubles, x.RoundTrips) (style : Json.Style) :
    IsObject ((Json.object (es.map fun e => (e.1, e.2.toJson))).print style) es := by
  have hscalars : ∀ m ∈ es.map fun e => (e.1, e.2.toJson), m.2.IsScalar :=
    List.forall_mem_map.mpr fun e _ => (Value.isScalar_toJson e.2).1
  refine ⟨_, Json.read_print_of_isScalar hscalars style, ?_⟩
  rw [Json.readings, List.map_map, List.forall₂_map_left_iff, List.forall₂_same]
  intro e he
  exact ⟨rfl, ((Value.isScalar_toJson e.2).2 e.2).mpr (Value.rereads_self_iff.mpr (h e he))⟩

theorem Made.eq_ofList (h : Made es a) : a = .ofList es := by
  induction h with
  | empty => rfl
  | insert name v _ ih => rw [ih, NameMap.ofList_concat]
  | collect es => rfl
  | decode htext ha => exact Except.ok.inj (ha.symm.trans (decodeString_of_isObject htext))

/-- Every object is read as an assignment. Assignments that are made, in whatever ways, from two
sequences with the same last value for each name have the same entries, in increasing order of the
bytes of the names, and agree in all that is read off them. What is held under a name is the last
value for it. -/
theorem made_of_isLast :
    (∀ es text, IsObject text es → ∃ a, decoder.decodeString text = .ok a) ∧
    ∀ es fs a b, (∀ name v, IsLast es name v ↔ IsLast fs name v) → Made es a → Made fs b →
      a.entries = b.entries ∧ a.names.Pairwise (Decoder.bytes · < Decoder.bytes ·) ∧
      (∀ name v, a.get? name = some v ↔ IsLast es name v) ∧
      (∀ name, a.get? name = b.get? name) ∧ a.size = b.size ∧ a.names = b.names ∧
      a.text = b.text ∧ (∀ style, a.toJson.print style = b.toJson.print style) ∧
      a.key = b.key := by
  constructor
  · intro es text htext
    exact ⟨_, decodeString_of_isObject htext⟩
  · intro es fs a b h ha hb
    have hlast (name : String) (v : Value) : a.get? name = some v ↔ IsLast es name v := by
      rw [ha.eq_ofList, NameMap.get?_ofList_eq_some_iff]
    obtain rfl : a = b := by rw [ha.eq_ofList, hb.eq_ofList, NameMap.ofList_eq_iff.mpr h]
    exact ⟨rfl, a.pairwise_names, hlast, fun _ => rfl, rfl, rfl, rfl, fun _ => rfl, rfl⟩

/-- An object that gives a name twice, and the last values inserted in another order. -/
theorem made_of_isLast_of_twice :
    let es : List (String × Value) := [("é", .int 1), ("x", .bool true), ("é", .string "z")]
    let fs : List (String × Value) := [("é", .string "z"), ("x", .bool true)]
    let text := "\x7b\"é\":1,\"x\":true,\"é\":\"z\"\x7d"
    let b : Assignment := (NameMap.empty.insert "é" (.string "z")).insert "x" (.bool true)
    ∃ a, decoder.decodeString text = .ok a ∧
      (∀ name v, IsLast es name v ↔ IsLast fs name v) ∧
      a.get? "é" = some (.string "z") ∧ a.names = b.names ∧ a.key = b.key := by
  intro es fs text b
  have hprint : (Json.object (es.map fun e => (e.1, e.2.toJson))).print .compact = text := by
    decide +kernel
  have htext : IsObject text es := hprint ▸ isObject_print (by decide) .compact
  have hlast : ∀ name v, IsLast es name v ↔ IsLast fs name v :=
    NameMap.ofList_eq_iff.mp (by decide)
  obtain ⟨a, ha⟩ := made_of_isLast.1 es text htext
  have hb : Made fs b := .insert "x" _ (.insert "é" _ .empty)
  obtain ⟨-, -, hget, -, -, hnames, -, -, hkey⟩ :=
    made_of_isLast.2 es fs a b hlast (.decode htext ha) hb
  exact ⟨a, ha, hlast, (hget "é" _).mpr ⟨es.take 2, [], rfl, by simp⟩, hnames, hkey⟩

end Assignment

end ParamSweep
