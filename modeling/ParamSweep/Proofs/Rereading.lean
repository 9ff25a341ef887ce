import Mathlib.Data.List.Forall2
import ParamSweep.Digest
import ParamSweep.Proofs.Json.Scalars
import ParamSweep.Proofs.NameMap
import ParamSweep.Proofs.Plan.RoundTrip

/-! # Assignments that are written and read

An assignment is read from what is written for it with the same names, and with values of the
same kinds: flags, integers and strings are the same, and a double is what its print alone is
read as. That is not always the double itself. So the assignment is read again exactly if each
of its doubles is read from its own print.
-/

namespace ParamSweep

open Json (Decoder Tree)

namespace Value

/-- Whether a value is read from what is written for another. -/
inductive Rereads : Value → Value → Prop
  | bool (b : Bool) : Rereads (.bool b) (.bool b)
  | int (n : Int64) : Rereads (.int n) (.int n)
  | float {x y : Binary64} (h : x.Rereads y) : Rereads (.float x) (.float y)
  | string (s : String) : Rereads (.string s) (.string s)

theorem rereads_self_iff {v : Value} : v.Rereads v ↔ ∀ x ∈ v.doubles, x.RoundTrips := by
  cases v with
  | bool b => exact ⟨fun _ => nofun, fun _ => .bool b⟩
  | int n => exact ⟨fun _ => nofun, fun _ => .int n⟩
  | float x =>
    constructor
    · rintro ⟨⟩
      next h => exact List.forall_mem_singleton.mpr h
    · exact fun h => .float (h x List.mem_cons_self)
  | string s => exact ⟨fun _ => nofun, fun _ => .string s⟩

theorem isScalar_of_doubles_eq_nil {v : Value} (h : v.doubles = []) :
    v.toJson.IsScalar ∧ decoder v.toJson.reading = .ok v ∧ ∀ w, v.Rereads w ↔ w = v := by
  have hrestores := restores (v := v) (by simp [h])
  have hprint : v.toJson.PrintsAs (Tree.ofJson v.toJson).token := by
    refine hrestores.legible.printsAs ?_
    cases v with
    | float x => cases h
    | _ => rfl
  refine ⟨hprint.isScalar, hprint.reading ▸ hrestores.decode, fun w => ⟨?_, ?_⟩⟩
  · intro hw
    cases hw with
    | float _ => cases h
    | _ => rfl
  · rintro rfl
    exact rereads_self_iff.mpr (by simp [h])

theorem exists_rereads_iff {v : Value} :
    (∃ w, v.Rereads w) ↔ ∀ x ∈ v.doubles, x.isFinite = true := by
  cases v with
  | bool b => exact ⟨fun _ => nofun, fun _ => ⟨_, .bool b⟩⟩
  | int n => exact ⟨fun _ => nofun, fun _ => ⟨_, .int n⟩⟩
  | float x =>
    constructor
    · rintro ⟨_, ⟨⟩⟩
      next h => exact List.forall_mem_singleton.mpr (Json.isFinite_of_rereads h)
    · intro h
      obtain ⟨y, hy⟩ := Json.exists_rereads_iff.mpr (h x List.mem_cons_self)
      exact ⟨.float y, .float hy⟩
  | string s => exact ⟨fun _ => nofun, fun _ => ⟨_, .string s⟩⟩

theorem rereads_float_iff {x : Binary64} {w : Value} :
    Rereads (.float x) w ↔ ∃ y, w = .float y ∧ x.Rereads y := by
  constructor
  · rintro ⟨⟩
    next y h => exact ⟨y, rfl, h⟩
  · rintro ⟨y, rfl, h⟩
    exact .float h

theorem isScalar_float (x : Binary64) :
    (toJson (.float x)).IsScalar ∧
      ∀ w, decoder (toJson (.float x)).reading = .ok w ↔ Rereads (.float x) w := by
  by_cases hx : x.isFinite = true
  · obtain ⟨y, hy⟩ := Json.exists_rereads_iff.mpr hx
    have hprint := Json.printsAs_of_rereads hy
    have hreading : (toJson (.float x)).reading = .number (.double y) := hprint.reading
    refine ⟨hprint.isScalar, fun w => ?_⟩
    rw [hreading, rereads_float_iff]
    constructor
    · intro h
      exact ⟨y, (Except.ok.inj h).symm, hy⟩
    · rintro ⟨z, rfl, hz⟩
      obtain rfl : y = z := Except.ok.inj (hy.symm.trans hz)
      rfl
  · have hprint := Json.printsAs_of_not_isFinite hx
    have hreading : (toJson (.float x)).reading = .null := hprint.reading
    refine ⟨hprint.isScalar, fun w => ?_⟩
    rw [hreading, rereads_float_iff]
    exact ⟨nofun, fun ⟨y, _, hy⟩ => absurd (Json.isFinite_of_rereads hy) hx⟩

/-- What is written for a value is one scalar, and from that its rereadings are decoded. -/
theorem isScalar_toJson (v : Value) :
    v.toJson.IsScalar ∧ ∀ w, decoder v.toJson.reading = .ok w ↔ v.Rereads w := by
  have hexact (h : v.doubles = []) :
      v.toJson.IsScalar ∧ ∀ w, decoder v.toJson.reading = .ok w ↔ v.Rereads w := by
    obtain ⟨hscalar, hdecode, hrereads⟩ := isScalar_of_doubles_eq_nil h
    refine ⟨hscalar, fun w => ?_⟩
    rw [hdecode, hrereads, Except.ok.injEq, eq_comm]
  cases v with
  | float x => exact isScalar_float x
  | bool b => exact hexact rfl
  | int n => exact hexact rfl
  | string s => exact hexact rfl

end Value

namespace Assignment

variable {a b : Assignment}

def doubles (a : Assignment) : List Binary64 := a.entries.flatMap fun e => e.2.doubles

def RereadsEntry (e f : String × Value) : Prop := e.1 = f.1 ∧ e.2.Rereads f.2

def Rereads (a b : Assignment) : Prop := List.Forall₂ RereadsEntry a.entries b.entries

theorem rereads_self_iff : a.Rereads a ↔ ∀ x ∈ a.doubles, x.RoundTrips := by
  rw [Rereads, List.forall₂_same, doubles, List.forall_mem_flatMap]
  simp only [RereadsEntry, true_and, Value.rereads_self_iff]

theorem entries_ofList_of_rereads {es : List (String × Value)}
    (h : List.Forall₂ RereadsEntry a.entries es) :
    (NameMap.ofList es).entries = es := by
  have hnames : a.entries.map Prod.fst = es.map Prod.fst := by
    rw [← List.forall₂_eq_eq_eq, List.forall₂_map_left_iff, List.forall₂_map_right_iff]
    exact h.imp fun _ _ hef => hef.1
  refine NameMap.entries_ofList (List.pairwise_map.mp ?_)
  rw [← hnames]
  exact List.pairwise_map.mpr a.sorted

theorem exists_rereads_iff : (∃ b, a.Rereads b) ↔ ∀ x ∈ a.doubles, x.isFinite = true := by
  have hlists (es : List (String × Value)) :
      (∃ fs, List.Forall₂ RereadsEntry es fs) ↔ ∀ e ∈ es, ∃ w, e.2.Rereads w := by
    induction es with
    | nil => simp
    | cons e es ih =>
      rw [List.forall_mem_cons, ← ih]
      constructor
      · rintro ⟨_, ⟨⟩⟩
        next h hs => exact ⟨⟨_, h.2⟩, _, hs⟩
      · rintro ⟨⟨w, hw⟩, fs, hfs⟩
        exact ⟨(e.1, w) :: fs, .cons ⟨rfl, hw⟩ hfs⟩
  have hentries : (∃ b, a.Rereads b) ↔ ∃ fs, List.Forall₂ RereadsEntry a.entries fs := by
    refine ⟨fun ⟨b, h⟩ => ⟨b.entries, h⟩, fun ⟨fs, h⟩ => ⟨.ofList fs, ?_⟩⟩
    rw [Rereads, entries_ofList_of_rereads h]
    exact h
  rw [hentries, hlists, doubles, List.forall_mem_flatMap]
  simp only [Value.exists_rereads_iff]

theorem decoder_eq_ok_iff :
    decoder (.object (Json.readings (a.entries.map fun (name, v) => (name, v.toJson))) none) =
      .ok b ↔ a.Rereads b := by
  have hmembers {es : List (String × Value)} :
      Decoder.members Value.decoder
          (Json.readings (a.entries.map fun (name, v) => (name, v.toJson))) = .ok es ↔
        List.Forall₂ RereadsEntry a.entries es := by
    rw [Decoder.members_readings_eq_ok_iff, List.forall₂_map_left_iff]
    simp only [(Value.isScalar_toJson _).2]
    rfl
  rw [decoder, Decoder.pairs, bind_eq_ok]
  constructor
  · rintro ⟨es, hes, h⟩
    obtain ⟨es', hes', h'⟩ := bind_eq_ok.mp hes
    obtain rfl := Except.ok.inj h'
    obtain rfl := Except.ok.inj h
    rw [Rereads, entries_ofList_of_rereads (hmembers.mp hes')]
    exact hmembers.mp hes'
  · intro h
    exact ⟨b.entries, bind_eq_ok.mpr ⟨b.entries, hmembers.mpr h, rfl⟩,
      congrArg Except.ok (NameMap.ofList_entries b)⟩

/-- From what is written for an assignment, in either style, its rereadings are decoded and
nothing else: they have its names and the same flags, integers and strings, and doubles that are
read from the prints of its doubles. There is one if the doubles are finite, but the assignment
itself is decoded only if each of its doubles is read from its own print. -/
theorem decodeString_eq_ok_iff_rereads (a : Assignment) (style : Json.Style) :
    (∀ b, decoder.decodeString (a.toJson.print style) = .ok b ↔ a.Rereads b) ∧
      ((∃ b, decoder.decodeString (a.toJson.print style) = .ok b) ↔
        ∀ x ∈ a.doubles, x.isFinite = true) ∧
      (decoder.decodeString (a.toJson.print style) = .ok a ↔ ∀ x ∈ a.doubles, x.RoundTrips) := by
  have hdecode (b : Assignment) :
      decoder.decodeString (a.toJson.print style) = .ok b ↔ a.Rereads b := by
    have hscalars : ∀ m ∈ a.entries.map fun (name, v) => (name, v.toJson), m.2.IsScalar :=
      List.forall_mem_map.mpr fun e _ => (Value.isScalar_toJson e.2).1
    have hread := Json.read_print_of_isScalar hscalars style
    rw [← decoder_eq_ok_iff]
    refine Decoder.decode_eq_ok.trans ⟨?_, fun h => ⟨_, hread, h⟩⟩
    rintro ⟨t, ht, h⟩
    obtain ⟨rfl, -⟩ := Prod.mk.inj (hread.symm.trans ht)
    exact h
  refine ⟨hdecode, ?_, (hdecode a).trans rereads_self_iff⟩
  simp only [hdecode]
  exact exists_rereads_iff

/-- The double that is displayed as `90.33333333333333` is read as its lower neighbour, so the
assignment that is read is another, with another key. -/
theorem decodeString_of_drift :
    let x := Binary64.ofNat 271 / Binary64.ofNat 3
    let a : Assignment := .ofList [("x", .float x)]
    let b : Assignment := .ofList [("x", .float ⟨x.word - 1⟩)]
    (∀ z ∈ a.doubles, z.isFinite = true) ∧ a.toJson.compact = "\x7b\"x\":90.33333333333333\x7d" ∧
      decoder.decodeString a.toJson.compact = .ok b ∧
      decoder.decodeString a.toJson.pretty = .ok b ∧ a ≠ b ∧ a.key ≠ b.key := by
  decide +kernel

end Assignment

end ParamSweep
