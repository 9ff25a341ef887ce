import Mathlib.Data.List.Nodup
import ParamSweep.Proofs.Json.Fields
import ParamSweep.Proofs.Json.Whole

/-! # Which keys a document may have

A form says of each place in a document which keys an object may have there. A decoder that
refuses unknown names takes only documents of its form, and reads all of what it takes: so no
key is passed over, and none is given twice. Decoders follow forms that are put together as
they are.
-/

namespace ParamSweep.Json

/-- What may stand at a place of a document. -/
inductive Form
  /-- No object. -/
  | scalar
  | list (item : Form)
  /-- An object of fields, or an array of them in their order. -/
  | record (fields : List (String × Form))
  /-- An object that names one of some alternatives, or an array without objects. -/
  | choice (alternatives : List (String × Form))

namespace Form

def names : Form → List String
  | .record fields => fields.map Prod.fst
  | .choice alternatives => alternatives.map Prod.fst
  | _ => []

def member : Form → String → Form
  | .record fields, key => (fields.lookup key).getD .scalar
  | .choice alternatives, key => (alternatives.lookup key).getD .scalar
  | _, _ => .scalar

def item : Form → Nat → Form
  | .list f, _ => f
  | .record fields, i => (fields[i]?.map Prod.snd).getD .scalar
  | _, _ => .scalar

/-- Whether an object may have some keys, in the order of the text. -/
def Declares (f : Form) (keys : List String) : Prop :=
  match f with
  | .record _ => keys.Nodup ∧ ∀ key ∈ keys, key ∈ f.names
  | .choice _ => ∃ key ∈ f.names, keys = [key]
  | _ => False

/-- Whether a value stands somewhere in a document, at a place of a form. -/
inductive Occurs : Form → Json → Form → Json → Prop
  | here {f : Form} {j : Json} : Occurs f j f j
  | item {f g : Form} {js : List Json} {i : Nat} {j k : Json} : js[i]? = some j →
      Occurs (f.item i) j g k → Occurs f (.array js) g k
  | member {f g : Form} {ms : List (String × Json)} {key : String} {j k : Json} :
      (key, j) ∈ ms → Occurs (f.member key) j g k → Occurs f (.object ms) g k

/-- Whether all objects in a document have the keys that they may have at their places. -/
def Fits (f : Form) (j : Json) : Prop :=
  ∀ g ms, f.Occurs j g (.object ms) → g.Declares (ms.map Prod.fst)

theorem fits_array {f : Form} {js : List Json} (h : ∀ i j, js[i]? = some j → (f.item i).Fits j) :
    f.Fits (.array js) := by
  rintro g ms hg
  cases hg with
  | item hj hg => exact h _ _ hj g ms hg

theorem fits_object {f : Form} {ms : List (String × Json)} (hms : f.Declares (ms.map Prod.fst))
    (h : ∀ key j, (key, j) ∈ ms → (f.member key).Fits j) : f.Fits (.object ms) := by
  rintro g ns hg
  cases hg with
  | here => exact hms
  | member hj hg => exact h _ _ hj g ns hg

theorem Declares.nodup {f : Form} {keys : List String} (h : f.Declares keys) : keys.Nodup := by
  cases f with
  | scalar => exact h.elim
  | list => exact h.elim
  | record fields => exact h.1
  | choice alternatives =>
    obtain ⟨key, -, rfl⟩ := h
    simp

theorem Declares.mem_names {f : Form} {keys : List String} (h : f.Declares keys) {key : String}
    (hkey : key ∈ keys) : key ∈ f.names := by
  cases f with
  | scalar => exact h.elim
  | list => exact h.elim
  | record fields => exact h.2 key hkey
  | choice alternatives =>
    obtain ⟨only, honly, rfl⟩ := h
    obtain rfl := List.mem_singleton.mp hkey
    exact honly

/-- The insertion of a member into an object somewhere in a document. The object stands at a place
of a form, and has some keys before. -/
inductive Inserts (key : String) (value : Json) :
    Form → Json → Form → List String → Json → Prop
  | here {f : Form} {before after : List (String × Json)} :
      Inserts key value f (.object (before ++ after)) f ((before ++ after).map Prod.fst)
        (.object (before ++ (key, value) :: after))
  | item {f g : Form} {before after : List Json} {j k : Json} {keys : List String} :
      Inserts key value (f.item before.length) j g keys k →
      Inserts key value f (.array (before ++ j :: after)) g keys (.array (before ++ k :: after))
  | member {f g : Form} {before after : List (String × Json)} {name : String} {j k : Json}
      {keys : List String} :
      Inserts key value (f.member name) j g keys k →
      Inserts key value f (.object (before ++ (name, j) :: after)) g keys
        (.object (before ++ (name, k) :: after))

theorem Inserts.occurs {key : String} {value : Json} {f g : Form} {j k : Json}
    {keys : List String} (h : Inserts key value f j g keys k) :
    ∃ ms before after, f.Occurs k g (.object ms) ∧ keys = before ++ after ∧
      ms.map Prod.fst = before ++ key :: after := by
  induction h with
  | @here _ before after =>
    refine ⟨before ++ (key, value) :: after, before.map Prod.fst, after.map Prod.fst, .here, ?_, ?_⟩
    · exact List.map_append
    · rw [List.map_append, List.map_cons]
  | item _ ih =>
    obtain ⟨ms, before, after, hg, hkeys⟩ := ih
    exact ⟨ms, before, after, .item (by simp) hg, hkeys⟩
  | member _ ih =>
    obtain ⟨ms, before, after, hg, hkeys⟩ := ih
    exact ⟨ms, before, after, .member (by simp) hg, hkeys⟩

/-- A document does not fit once an object has a key that it may not have, or one twice. -/
theorem Inserts.not_fits {key : String} {value : Json} {f g : Form} {j k : Json}
    {keys : List String} (h : Inserts key value f j g keys k) (hkey : key ∉ g.names ∨ key ∈ keys) :
    ¬ f.Fits k := by
  intro hfits
  obtain ⟨ms, before, after, hg, rfl, hms⟩ := h.occurs
  have hdeclares := hfits g ms hg
  rw [hms] at hdeclares
  rcases hkey with hkey | hkey
  · exact hkey (hdeclares.mem_names (List.mem_append_right _ List.mem_cons_self))
  · exact (List.nodup_middle.mp hdeclares.nodup).notMem hkey

end Form

namespace Tree

theorem eq_of_ofJson_array {j : Json} {ts : List Tree} {cut : Option Fault}
    (h : ofJson j = .array ts cut) : ∃ js, j = .array js ∧ ts = js.map ofJson := by
  cases j with
  | array js =>
    obtain ⟨rfl, -⟩ := Tree.array.inj h
    exact ⟨js, rfl, ofItems_eq_map js⟩
  | _ => cases h

theorem eq_of_ofJson_object {j : Json} {es : List (String × Tree)} {cut : Option Fault}
    (h : ofJson j = .object (es.map fun e => (.string e.1, e.2)) cut) :
    ∃ ms, j = .object ms ∧ es = ms.map fun m => (m.1, ofJson m.2) := by
  cases j with
  | object ms =>
    obtain ⟨hms, -⟩ := Tree.object.inj h
    refine ⟨ms, rfl, ?_⟩
    have hinj : Function.Injective fun e : String × Tree => (Tree.string e.1, e.2) := by
      rintro ⟨k, t⟩ ⟨k', t'⟩ heq
      simpa using heq
    apply List.map_injective_iff.mpr hinj
    rw [← hms, ofMembers_eq_map, List.map_map]
    rfl
  | _ => cases h

structure IsOf (f : Form) (t : Tree) : Prop where
  whole : t.Whole
  fits : ∀ j, t = ofJson j → f.Fits j

variable {f : Form}

theorem isOf_array {ts : List Tree}
    (h : ∀ (i : Nat) (t : Tree), ts[i]? = some t → t.IsOf (f.item i)) : (array ts none).IsOf f where
  whole := by
    simp only [whole_array, and_true]
    rintro t ht
    obtain ⟨i, hi⟩ := List.getElem?_of_mem ht
    exact (h i t hi).whole
  fits := by
    rintro j hj
    obtain ⟨js, rfl, rfl⟩ := eq_of_ofJson_array hj.symm
    refine Form.fits_array fun i j hi => (h i (ofJson j) ?_).fits j rfl
    rw [List.getElem?_map, hi]
    rfl

theorem isOf_object {es : List (String × Tree)} (hes : f.Declares (es.map Prod.fst))
    (h : ∀ e ∈ es, e.2.IsOf (f.member e.1)) :
    (object (es.map fun e => (.string e.1, e.2)) none).IsOf f where
  whole := by
    simp only [whole_object, List.forall_mem_map, and_true]
    exact fun e he => ⟨rfl, (h e he).whole⟩
  fits := by
    rintro j hj
    obtain ⟨ms, rfl, rfl⟩ := eq_of_ofJson_object hj.symm
    simp only [List.map_map, List.forall_mem_map] at hes h
    exact Form.fits_object hes fun key j hm => (h (key, j) hm).fits j rfl

/-- Whether a tree is no container, and nothing is wrong with it. -/
def isLeaf : Tree → Bool
  | .null | .bool _ | .number _ | .string _ => true
  | _ => false

theorem isOf_of_isLeaf {t : Tree} (h : t.isLeaf) : t.IsOf f where
  whole := by cases t <;> first | rfl | cases h
  fits := by
    rintro j rfl g ms hg
    cases hg <;> cases h

end Tree

/-- A decoder that takes nothing but documents of a form, and reads all of them. -/
structure Decoder.Follows {α : Type} (decode : Decoder α) (f : Form) : Prop where
  isOf : ∀ {t a}, decode t = .ok a → t.IsOf f

namespace Fields

variable {ts : List Type} {fields : Fields ts}

def Accepts : {ts : List Type} → Fields ts → String → Tree → Prop
  | [], .nil, _, _ => False
  | _ :: _, .cons name decode _ fields, k, t =>
    if k = name then ∃ a, decode t = .ok a else fields.Accepts k t

def AcceptsAt : {ts : List Type} → Fields ts → Nat → Tree → Prop
  | [], .nil, _, _ => False
  | _ :: _, .cons _ decode _ _, 0, t => ∃ a, decode t = .ok a
  | _ :: _, .cons _ _ _ fields, i + 1, t => fields.AcceptsAt i t

def isFilled : {ts : List Type} → Fields ts → Slots ts → String → Bool
  | [], .nil, (), _ => false
  | _ :: _, .cons name _ _ fields, (slot, slots), k =>
    if k = name then slot.isSome else fields.isFilled slots k

theorem accepts_of_put? {k : String} {t : Tree} {slots slots' : Slots ts}
    (h : fields.put? k t slots = some (.ok slots')) :
    fields.Accepts k t ∧ fields.isFilled slots k = false ∧
      ∀ k', fields.isFilled slots' k' = (k' == k || fields.isFilled slots k') := by
  induction fields with
  | nil => cases h
  | cons name decode default fields ih =>
    obtain ⟨slot, slots⟩ := slots
    rcases put?_eq_ok h with ⟨rfl, rfl, a, ha, rfl⟩ | ⟨hk, next, hnext, rfl⟩
    · refine ⟨?_, ?_, fun k' => ?_⟩
      · rw [Accepts, if_pos rfl]
        exact ⟨a, ha⟩
      · rw [isFilled, if_pos rfl]
        rfl
      · by_cases hk' : k' = k <;> simp [isFilled, hk']
    · obtain ⟨haccepts, hempty, hfilled⟩ := ih hnext
      refine ⟨?_, ?_, fun k' => ?_⟩
      · rwa [Accepts, if_neg hk]
      · rwa [isFilled, if_neg hk]
      · by_cases hk' : k' = name
        · simp [isFilled, hk', Ne.symm hk]
        · simp [isFilled, hk', hfilled]

/-- Members of different fields, each of which takes its value. They are different because the slot
of each is empty before it is read, and stays filled. -/
theorem ofMembers_refused {ms : List (Tree × Tree)} {slots slots' : Slots ts}
    (h : fields.ofMembers .refused ms slots = .ok slots') :
    ∃ es : List (String × Tree), ms = es.map (fun e => (.string e.1, e.2)) ∧
      (es.map Prod.fst).Nodup ∧ (∀ e ∈ es, fields.isFilled slots e.1 = false) ∧
      ∀ e ∈ es, fields.Accepts e.1 e.2 := by
  induction ms generalizing slots with
  | nil => exact ⟨[], rfl, .nil, nofun, nofun⟩
  | cons m ms ih =>
    obtain ⟨_, t⟩ := m
    obtain ⟨k, rfl, ⟨next, hnext, hms⟩ | ⟨hskipped, -⟩⟩ := ofMembers_eq_ok h
    · obtain ⟨haccepts, hempty, hfilled⟩ := accepts_of_put? hnext
      obtain ⟨es, rfl, hnodup, hes, hall⟩ := ih hms
      simp only [hfilled, Bool.or_eq_false_iff, beq_eq_false_iff_ne] at hes
      refine ⟨(k, t) :: es, rfl, List.nodup_cons.mpr ⟨?_, hnodup⟩, ?_, ?_⟩
      · rintro hmem
        obtain ⟨e, he, hek⟩ := List.mem_map.mp hmem
        exact (hes e he).1 hek
      · exact List.forall_mem_cons.mpr ⟨hempty, fun e he => (hes e he).2⟩
      · exact List.forall_mem_cons.mpr ⟨haccepts, hall⟩
    · cases hskipped

theorem acceptsAt_of_ofItems {title : String} {total : Nat} {cut : Option Fault}
    {items : List Tree} {values : Values ts}
    (h : fields.ofItems title total cut items = .ok (values, [])) :
    ∀ i t, items[i]? = some t → fields.AcceptsAt i t := by
  induction fields generalizing items with
  | nil =>
    obtain ⟨-, rfl⟩ := Prod.mk.inj (Except.ok.inj h)
    simp
  | cons name decode default fields ih =>
    cases items with
    | nil => simp
    | cons t items =>
      obtain ⟨a, as, ha, has, rfl⟩ := ofItems_cons_eq_ok h
      rintro i u hu
      cases i with
      | zero =>
        obtain rfl := Option.some.inj hu
        exact ⟨a, ha⟩
      | succ i => exact ih has i u hu

inductive Follow : {ts : List Type} → Fields ts → List (String × Form) → Prop
  | nil : Follow .nil []
  | cons {α : Type} {ts : List Type} {fields : Fields ts} {forms : List (String × Form)}
      {name : String} {decode : Decoder α} {default : Option α} {form : Form}
      (h : decode.Follows form) (hs : fields.Follow forms) :
      (Fields.cons name decode default fields).Follow ((name, form) :: forms)

variable {forms : List (String × Form)}

theorem Follow.accepts (h : fields.Follow forms) {k : String} {t : Tree} (ht : fields.Accepts k t) :
    k ∈ forms.map Prod.fst ∧ t.IsOf ((Form.record forms).member k) := by
  induction h with
  | nil => cases ht
  | @cons _ _ _ forms name _ _ form h _ ih =>
    rw [Accepts] at ht
    by_cases hk : k = name
    · rw [if_pos hk] at ht
      obtain ⟨a, ha⟩ := ht
      simpa [Form.member, hk] using h.isOf ha
    · rw [if_neg hk] at ht
      obtain ⟨hmem, hof⟩ := ih ht
      have hlookup : (k == name) = false := by simpa using hk
      refine ⟨List.mem_cons_of_mem _ hmem, ?_⟩
      simpa only [Form.member, List.lookup_cons, hlookup] using hof

theorem Follow.acceptsAt (h : fields.Follow forms) {i : Nat} {t : Tree}
    (ht : fields.AcceptsAt i t) : t.IsOf ((Form.record forms).item i) := by
  induction h generalizing i with
  | nil => cases ht
  | cons h _ ih =>
    cases i with
    | zero =>
      obtain ⟨a, ha⟩ := ht
      exact h.isOf ha
    | succ i => simpa [Form.item] using ih ht

end Fields

namespace Decoder

/-! ### Records -/

section Record

variable {α : Type} {ts : List Type} {fields : Fields ts} {forms : List (String × Form)}
  {title : String} {make : Fields.Values ts → α} {t : Tree} {a : α}

theorem Follows.record (h : fields.Follow forms) :
    (Decoder.record title .refused fields make).Follows (.record forms) := by
  constructor
  intro t a ha
  obtain ⟨values, -, ⟨ms, slots, rfl, hslots, -⟩ | ⟨items, rfl, hitems⟩⟩ := record_eq_ok ha
  · obtain ⟨es, rfl, hnodup, -, hall⟩ := Fields.ofMembers_refused hslots
    refine Tree.isOf_object ⟨hnodup, ?_⟩ fun e he => (h.accepts (hall e he)).2
    simp only [List.forall_mem_map]
    exact fun e he => (h.accepts (hall e he)).1
  · exact Tree.isOf_array fun i t ht => h.acceptsAt (Fields.acceptsAt_of_ofItems hitems i t ht)

end Record

/-! ### Lists, options and alternatives -/

section Others

variable {α : Type} {decode : Decoder α} {f : Form}

theorem Follows.items (h : decode.Follows f) {g : Form} (hg : ∀ i, g.item i = f) :
    (list decode).Follows g := by
  constructor
  intro t as has
  obtain ⟨ts, rfl, hmap⟩ := list_eq_ok has
  refine Tree.isOf_array fun i t ht => ?_
  have hmem : decode t ∈ as.map .ok := hmap ▸ List.mem_map_of_mem (List.mem_of_getElem? ht)
  obtain ⟨a, -, ha⟩ := List.mem_map.mp hmem
  rw [hg]
  exact h.isOf ha.symm

theorem Follows.list (h : decode.Follows f) : (list decode).Follows (.list f) :=
  h.items fun _ => rfl

theorem Follows.optional (h : decode.Follows f) : (optional decode).Follows f := by
  constructor
  intro t x hx
  unfold Decoder.optional at hx
  split at hx
  · exact Tree.isOf_of_isLeaf rfl
  · obtain ⟨a, ha, -⟩ := bind_eq_ok.mp hx
    exact h.isOf ha

theorem Follows.choice {bare : String → Except Error α} {named : String → Decoder α}
    {alternatives : List (String × Form)}
    (h : ∀ {k t a}, named k t = .ok a → ∃ f, alternatives.lookup k = some f ∧ t.IsOf f) :
    (choice bare named).Follows (.choice alternatives) := by
  constructor
  intro t a ha
  rcases choice_eq_ok ha with ⟨s, rfl, -⟩ | ⟨k, u, rfl, hu⟩
  · exact Tree.isOf_of_isLeaf rfl
  · obtain ⟨f, hf, hof⟩ := h hu
    refine @Tree.isOf_object (.choice alternatives) [(k, u)] ⟨k, ?_, rfl⟩ ?_
    · obtain ⟨before, after, rfl, -⟩ := List.lookup_eq_some_iff.mp hf
      simp [Form.names]
    · simpa [Form.member, hf] using hof

end Others

/-! ### Scalars -/

section Scalars

variable (f : Form)

theorem Follows.of_wrongType {α : Type} {decode : Decoder α} {expected : String}
    (h : ∀ t : Tree, t.isLeaf = false → decode t = wrongType expected t) : decode.Follows f := by
  constructor
  intro t a ha
  cases ht : t.isLeaf with
  | true => exact Tree.isOf_of_isLeaf ht
  | false =>
    rw [h t ht] at ha
    exact absurd ha (wrongType_ne_ok expected t a)

theorem Follows.string : Decoder.string.Follows f :=
  .of_wrongType f fun t ht => by cases t <;> first | rfl | cases ht

theorem Follows.count : Decoder.count.Follows f :=
  .of_wrongType f fun t ht => by cases t <;> first | rfl | cases ht

theorem Follows.int64 : Decoder.int64.Follows f :=
  .of_wrongType f fun t ht => by cases t <;> first | rfl | cases ht

theorem Follows.double : Decoder.double.Follows f :=
  .of_wrongType f fun t ht => by cases t <;> first | rfl | cases ht

theorem Follows.unit : Decoder.unit.Follows f :=
  .of_wrongType f fun t ht => by cases t <;> first | rfl | cases ht

end Scalars

/-- A text that is decoded is that of one document, which is of the form. -/
theorem Follows.exists_fits {α : Type} {decoder : Decoder α} {f : Form} (h : decoder.Follows f)
    {text : String} {a : α} (ha : decoder.decodeString text = .ok a) :
    ∃ j, IsTextOf text j ∧ f.Fits j := by
  obtain ⟨t, hread, ht⟩ := decode_eq_ok.mp ha
  obtain ⟨j, rfl, hj⟩ := exists_json_of_read hread (h.isOf ht).whole
  exact ⟨j, hj, (h.isOf ht).fits j rfl⟩

end Decoder

end ParamSweep.Json
