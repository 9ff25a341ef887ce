/-! # Maps from names

A finite map from names keeps its entries in increasing order of the names, each name
once. So it does not remember in which order it was built, and two maps with the same
entries are equal.
-/

namespace ParamSweep

structure NameMap (α : Type) where
  entries : List (String × α)
  sorted : entries.Pairwise (·.1 < ·.1)

namespace NameMap

variable {α β : Type}

theorem ext {m n : NameMap α} (h : m.entries = n.entries) : m = n := by
  cases m; cases n; congr

instance [DecidableEq α] : DecidableEq (NameMap α) := fun m n =>
  decidable_of_iff (m.entries = n.entries) ⟨ext, fun h => h ▸ rfl⟩

def empty : NameMap α := ⟨[], .nil⟩

instance : Inhabited (NameMap α) := ⟨empty⟩

/-- The value of a name. -/
def get? (m : NameMap α) (name : String) : Option α := m.entries.lookup name

def contains (m : NameMap α) (name : String) : Bool := (m.get? name).isSome

def size (m : NameMap α) : Nat := m.entries.length

def isEmpty (m : NameMap α) : Bool := m.entries.isEmpty

def names (m : NameMap α) : List String := m.entries.map (·.1)

def values (m : NameMap α) : List α := m.entries.map (·.2)

/-- Puts an entry in its place among sorted entries, instead of one of the same name. -/
def place (name : String) (a : α) : List (String × α) → List (String × α)
  | [] => [(name, a)]
  | e :: es =>
    if name < e.1 then (name, a) :: e :: es
    else if e.1 < name then e :: place name a es
    else (name, a) :: es

theorem mem_place {name : String} {a : α} {x : String × α} {es : List (String × α)}
    (h : x ∈ place name a es) : x = (name, a) ∨ x ∈ es := by
  fun_induction place name a es <;> grind

theorem sorted_place (name : String) (a : α) {es : List (String × α)}
    (h : es.Pairwise (·.1 < ·.1)) : (place name a es).Pairwise (·.1 < ·.1) := by
  fun_induction place name a es with
  | case1 => simp
  | case2 e es hlt =>
    refine List.pairwise_cons.mpr ⟨fun x hx => ?_, h⟩
    rcases List.mem_cons.mp hx with rfl | hx
    · exact hlt
    · exact String.lt_trans hlt (List.rel_of_pairwise_cons h hx)
  | case3 e es _ hgt ih =>
    refine List.pairwise_cons.mpr ⟨fun x hx => ?_, ih (List.pairwise_cons.mp h).2⟩
    rcases mem_place hx with rfl | hx
    · exact hgt
    · exact List.rel_of_pairwise_cons h hx
  | case4 e es hlt hgt =>
    have he : name = e.1 := String.le_antisymm (String.not_lt.mp hgt) (String.not_lt.mp hlt)
    exact List.pairwise_cons.mpr
      ⟨fun x hx => he ▸ List.rel_of_pairwise_cons h hx, (List.pairwise_cons.mp h).2⟩

/-- Sets the value of a name. -/
def insert (m : NameMap α) (name : String) (a : α) : NameMap α :=
  ⟨place name a m.entries, sorted_place name a m.sorted⟩

/-- Removes a name. -/
def erase (m : NameMap α) (name : String) : NameMap α :=
  ⟨m.entries.filter (·.1 != name), m.sorted.filter _⟩

/-- The map of some entries, of which the last one with a name counts. -/
def ofList (es : List (String × α)) : NameMap α :=
  es.foldl (fun m e => m.insert e.1 e.2) empty

end NameMap

end ParamSweep
