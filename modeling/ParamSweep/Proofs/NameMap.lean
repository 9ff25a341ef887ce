import Mathlib.Data.List.Sort
import ParamSweep.NameMap

/-! # Looking up names

A map is known by what it holds under each name. Setting a name changes what is held
there and nothing else, and so does removing one. A map built from a list holds under
each name the last value that the list has for it.
-/

namespace ParamSweep.NameMap

variable {α β : Type}

theorem lookup_cons_eq (e : String × α) (es : List (String × α)) (name : String) :
    (e :: es).lookup name = if name = e.1 then some e.2 else es.lookup name := by
  rw [List.lookup_cons]
  by_cases h : name = e.1
  · rw [beq_iff_eq.mpr h, if_pos h]
  · rw [beq_eq_false_iff_ne.mpr h, if_neg h]

theorem lookup_place (name : String) (a : α) (es : List (String × α)) (other : String) :
    (place name a es).lookup other = if other = name then some a else es.lookup other := by
  fun_induction place name a es with
  | case1 => rw [lookup_cons_eq]
  | case2 e es hlt => rw [lookup_cons_eq]
  | case3 e es hlt hgt ih =>
    rw [lookup_cons_eq, lookup_cons_eq, ih]
    by_cases ho : other = name
    · rw [if_neg (ho ▸ (String.ne_of_lt hgt).symm), if_pos ho, if_pos ho]
    · rw [if_neg ho, if_neg ho]
  | case4 e es hlt hgt =>
    have he : name = e.1 := String.le_antisymm (String.not_lt.mp hgt) (String.not_lt.mp hlt)
    rw [lookup_cons_eq, lookup_cons_eq, ← he]
    split <;> rfl

theorem lookup_filter_ne (name : String) (es : List (String × α)) (other : String) :
    (es.filter (·.1 != name)).lookup other = if other = name then none else es.lookup other := by
  induction es with
  | nil => simp
  | cons e es ih =>
    rw [lookup_cons_eq, List.filter_cons]
    by_cases he : e.1 = name
    · rw [if_neg (by simpa using he), ih, he]
      by_cases ho : other = name
      · rw [if_pos ho, if_pos ho]
      · rw [if_neg ho, if_neg ho, if_neg ho]
    · rw [if_pos (by simpa using he), lookup_cons_eq, ih]
      by_cases ho : other = name
      · rw [if_neg (ho ▸ Ne.symm he), if_pos ho, if_pos ho]
      · rw [if_neg ho, if_neg ho]

theorem lookup_eq_some_iff_mem {es : List (String × α)} (h : (es.map (·.1)).Nodup)
    {name : String} {a : α} : es.lookup name = some a ↔ (name, a) ∈ es := by
  induction es with
  | nil => simp
  | cons e es ih =>
    obtain ⟨hn, hs⟩ := List.nodup_cons.mp h
    rw [lookup_cons_eq, List.mem_cons, Prod.ext_iff]
    by_cases he : name = e.1
    · subst he
      have hm : (e.1, a) ∉ es := fun hm => hn (List.mem_map.mpr ⟨_, hm, rfl⟩)
      simp [hm, eq_comm]
    · simp [he, ih hs]

@[simp] theorem get?_empty (name : String) : (empty : NameMap α).get? name = none := rfl

theorem get?_insert (m : NameMap α) (name : String) (a : α) (other : String) :
    (m.insert name a).get? other = if other = name then some a else m.get? other :=
  lookup_place name a m.entries other

@[simp] theorem get?_insert_self (m : NameMap α) (name : String) (a : α) :
    (m.insert name a).get? name = some a := by rw [get?_insert, if_pos rfl]

theorem get?_insert_of_ne (m : NameMap α) {name other : String} (a : α) (h : other ≠ name) :
    (m.insert name a).get? other = m.get? other := by rw [get?_insert, if_neg h]

theorem get?_erase (m : NameMap α) (name other : String) :
    (m.erase name).get? other = if other = name then none else m.get? other :=
  lookup_filter_ne name m.entries other

theorem get?_erase_of_ne (m : NameMap α) {name other : String} (h : other ≠ name) :
    (m.erase name).get? other = m.get? other := by rw [get?_erase, if_neg h]

theorem nodup_names (m : NameMap α) : (m.entries.map (·.1)).Nodup := by
  rw [List.nodup_iff_pairwise_ne, List.pairwise_map]
  exact m.sorted.imp String.ne_of_lt

theorem get?_eq_some_iff (m : NameMap α) {name : String} {a : α} :
    m.get? name = some a ↔ (name, a) ∈ m.entries :=
  lookup_eq_some_iff_mem m.nodup_names

theorem mem_names_iff (m : NameMap α) {name : String} :
    name ∈ m.names ↔ ∃ a, m.get? name = some a := by
  simp [names, get?_eq_some_iff]

theorem names_eq {m : NameMap α} {n : NameMap β} (h : ∀ name, name ∈ m.names ↔ name ∈ n.names) :
    m.names = n.names := by
  have : Std.Irrefl fun x y : String => x < y := ⟨String.lt_irrefl⟩
  have : Std.Antisymm fun x y : String => x < y :=
    ⟨fun _ _ hxy hyx => (String.lt_asymm hxy hyx).elim⟩
  exact (List.pairwise_map.mpr m.sorted).eq_of_mem_iff (List.pairwise_map.mpr n.sorted) h

theorem ext_get? {m n : NameMap α} (h : ∀ name, m.get? name = n.get? name) : m = n := by
  have hm : ∀ e, e ∈ m.entries ↔ e ∈ n.entries := by
    rintro ⟨name, a⟩
    rw [← get?_eq_some_iff, ← get?_eq_some_iff, h]
  have : Std.Irrefl fun x y : String × α => x.1 < y.1 := ⟨fun x => String.lt_irrefl x.1⟩
  have : Std.Antisymm fun x y : String × α => x.1 < y.1 :=
    ⟨fun _ _ hxy hyx => (String.lt_asymm hxy hyx).elim⟩
  exact ext (m.sorted.eq_of_mem_iff n.sorted hm)

theorem get?_foldl_insert (es : List (String × α)) (m : NameMap α) (name : String) :
    (es.foldl (fun m e => m.insert e.1 e.2) m).get? name =
      (es.reverse.lookup name).or (m.get? name) := by
  induction es generalizing m with
  | nil => simp
  | cons e es ih =>
    have hl : (es.reverse ++ [e]).lookup name =
        (es.reverse.lookup name).or (if name = e.1 then some e.2 else none) := by
      rw [List.lookup_append, lookup_cons_eq, List.lookup_nil]
    rw [List.foldl_cons, ih, get?_insert, List.reverse_cons, hl]
    split <;> simp

/-- A map from a list holds the last value that the list has for a name. -/
theorem get?_ofList (es : List (String × α)) (name : String) :
    (ofList es).get? name = es.reverse.lookup name := by
  rw [ofList, get?_foldl_insert, get?_empty, Option.or_none]

theorem get?_ofList_of_nodup {es : List (String × α)} (h : (es.map (·.1)).Nodup) {name : String}
    {a : α} : (ofList es).get? name = some a ↔ (name, a) ∈ es := by
  have hr : (es.reverse.map (·.1)).Nodup := by rwa [List.map_reverse, List.nodup_reverse]
  rw [get?_ofList, lookup_eq_some_iff_mem hr, List.mem_reverse]

theorem ofList_perm {es fs : List (String × α)} (h : es.Perm fs) (hn : (es.map (·.1)).Nodup) :
    ofList es = ofList fs := by
  refine ext_get? fun name => Option.ext fun a => ?_
  rw [get?_ofList_of_nodup hn, get?_ofList_of_nodup ((h.map _).nodup_iff.mp hn), h.mem_iff]

theorem ofList_entries (m : NameMap α) : ofList m.entries = m := by
  refine ext_get? fun name => Option.ext fun a => ?_
  rw [get?_ofList_of_nodup m.nodup_names, get?_eq_some_iff]

theorem entries_ofList {es : List (String × α)} (h : es.Pairwise (·.1 < ·.1)) :
    (ofList es).entries = es :=
  congrArg entries (ofList_entries ⟨es, h⟩)

end ParamSweep.NameMap
