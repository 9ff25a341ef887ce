import Mathlib.Data.List.Basic
import Mathlib.Data.List.Induction
import ParamSweep.Proofs.Json.Spelling
import ParamSweep.Proofs.Json.Tokens

/-! # Texts that are read whole

A tree without faults comes from a text that consists of the tokens of a JSON value, and is
the tree of that value. What the reader keeps while it has met no fault are the open
containers around what comes next, and the tokens so far are those of the containers. As a
fault never goes away again, nothing else has to be said of the other states.
-/

namespace ParamSweep.Json

def Tree.Whole (t : Tree) : Prop := t.fault? = none

namespace Tree

@[simp]
theorem not_whole_broken (read skip : Fault) : ¬ (broken read skip).Whole := nofun

@[simp]
theorem not_whole_unreadable (form : Tree) : ¬ (unreadable form).Whole := nofun

theorem itemsFault?_eq_none {ts : List Tree} :
    itemsFault? ts = none ↔ ∀ t ∈ ts, t.Whole := by
  induction ts with
  | nil => simp [itemsFault?]
  | cons t ts ih => simp [itemsFault?, ih, Whole]

theorem membersFault?_eq_none {ms : List (Tree × Tree)} :
    membersFault? ms = none ↔ ∀ m ∈ ms, m.1.Whole ∧ m.2.Whole := by
  induction ms with
  | nil => simp [membersFault?]
  | cons m ms ih => simp [membersFault?, ih, Whole, and_assoc]

@[simp]
theorem whole_array {items : List Tree} {cut : Option Fault} :
    (array items cut).Whole ↔ (∀ t ∈ items, t.Whole) ∧ cut = none := by
  rw [Whole, fault?, Option.or_eq_none_iff, itemsFault?_eq_none]

@[simp]
theorem whole_object {members : List (Tree × Tree)} {cut : Option Fault} :
    (object members cut).Whole ↔ (∀ m ∈ members, m.1.Whole ∧ m.2.Whole) ∧ cut = none := by
  rw [Whole, fault?, Option.or_eq_none_iff, membersFault?_eq_none]

theorem ofItems_eq_map (js : List Json) : ofItems js = js.map ofJson := by
  induction js with
  | nil => rfl
  | cons j js ih => rw [ofItems, ih, List.map_cons]

theorem ofMembers_eq_map (ms : List (String × Json)) :
    ofMembers ms = ms.map fun m => (.string m.1, ofJson m.2) := by
  induction ms with
  | nil => rfl
  | cons m ms ih => rw [ofMembers, ih, List.map_cons]

end Tree

def Frame.Whole : Frame → Prop
  | .array items => ∀ t ∈ items, t.Whole
  | .object members name => (∀ m ∈ members, m.1.Whole ∧ m.2.Whole) ∧ name.Whole

def Waiting.Whole : Waiting → Prop
  | .forValue open_ => ∀ f ∈ open_, f.Whole
  | .forItem outer => ∀ f ∈ outer, f.Whole
  | .forName outer members => (∀ f ∈ outer, f.Whole) ∧ ∀ m ∈ members, m.1.Whole ∧ m.2.Whole
  | .forColon outer members name =>
    (∀ f ∈ outer, f.Whole) ∧ (∀ m ∈ members, m.1.Whole ∧ m.2.Whole) ∧ name.Whole
  | .forMore open_ value => (∀ f ∈ open_, f.Whole) ∧ value.Whole
  | .forNothing value excess => value.Whole ∧ excess = none

/-! ### A fault stays -/

theorem nested_whole {outer : List Frame} {t : Tree} (h : (nested outer t).Whole) :
    t.Whole ∧ nested outer t = t := by
  unfold nested at h ⊢
  split at h
  · next hroom => exact ⟨h, if_pos hroom⟩
  · exact absurd h (Tree.not_whole_unreadable t)

theorem Frame.whole_of_add {f : Frame} {value : Tree} (h : (f.add value).Whole) :
    f.Whole ∧ value.Whole := by
  cases f with
  | array items =>
    have hall := (Tree.whole_array.mp h).1
    simp only [List.mem_reverse, List.forall_mem_cons] at hall
    exact ⟨hall.2, hall.1⟩
  | object members name =>
    have hall := (Tree.whole_object.mp h).1
    simp only [List.mem_reverse, List.forall_mem_cons] at hall
    exact ⟨⟨hall.2, hall.1.1⟩, hall.1.2⟩

theorem Frame.not_whole_addAndCut (f : Frame) (value : Tree) (fault : Fault) :
    ¬ (f.addAndCut value fault).Whole := by
  cases f <;> simp [addAndCut]

theorem whole_of_closeAll {value : Tree} {open_ : List Frame} (h : (closeAll value open_).Whole) :
    value.Whole ∧ ∀ f ∈ open_, f.Whole := by
  induction open_ generalizing value with
  | nil => exact ⟨h, nofun⟩
  | cons frame outer ih =>
    obtain ⟨hvalue, houter⟩ := ih h
    obtain ⟨hframe, hvalue⟩ := Frame.whole_of_add (nested_whole hvalue).1
    exact ⟨hvalue, List.forall_mem_cons.mpr ⟨hframe, houter⟩⟩

namespace Waiting

variable {w : Waiting} {t : Token} {open_ outer : List Frame}

theorem not_whole_misfit (open_ : List Frame) : ¬ (stop misfit open_).Whole :=
  fun h => Tree.not_whole_broken _ _ (whole_of_closeAll h.1).1

theorem not_whole_cut (frame : Frame) (outer : List Frame) (value : Tree) (fault : Fault) :
    ¬ (stop (nested outer (frame.addAndCut value fault)) outer).Whole :=
  fun h => frame.not_whole_addAndCut value fault (nested_whole (whole_of_closeAll h.1).1).1

theorem whole_of_startValue (h : (startValue open_ t).Whole) : ∀ f ∈ open_, f.Whole := by
  cases t with
  | string | scalar | objectStart => exact h.1
  | arrayStart => exact h
  | arrayEnd | objectEnd | comma | colon => exact absurd h (not_whole_misfit open_)

theorem whole_of_afterValue {frame : Frame} {value : Tree}
    (h : (afterValue frame outer value t).Whole) :
    (∀ f ∈ frame :: outer, f.Whole) ∧ value.Whole := by
  unfold afterValue at h
  split at h
  · next items =>
    obtain ⟨hall, houter⟩ := List.forall_mem_cons.mp h
    obtain ⟨hvalue, hitems⟩ := List.forall_mem_cons.mp hall
    exact ⟨List.forall_mem_cons.mpr ⟨hitems, houter⟩, hvalue⟩
  · next members name =>
    obtain ⟨⟨hname, hvalue⟩, hmembers⟩ := List.forall_mem_cons.mp h.2
    exact ⟨List.forall_mem_cons.mpr ⟨⟨hmembers, hname⟩, h.1⟩, hvalue⟩
  · obtain ⟨hframe, hvalue⟩ := Frame.whole_of_add (nested_whole h.2).1
    exact ⟨List.forall_mem_cons.mpr ⟨hframe, h.1⟩, hvalue⟩
  · obtain ⟨hframe, hvalue⟩ := Frame.whole_of_add (nested_whole h.2).1
    exact ⟨List.forall_mem_cons.mpr ⟨hframe, h.1⟩, hvalue⟩
  · exact absurd h (not_whole_cut _ _ _ _)

theorem whole_of_step (h : (w.step t).Whole) : w.Whole := by
  unfold step at h
  split at h
  · exact whole_of_startValue h
  · exact h.1
  · exact (List.forall_mem_cons.mp (whole_of_startValue h)).2
  · exact ⟨h.1, h.2.1⟩
  · exact ⟨h.1, nofun⟩
  · exact absurd h (not_whole_misfit _)
  · obtain ⟨hframe, houter⟩ := List.forall_mem_cons.mp h
    exact ⟨houter, hframe.1, hframe.2⟩
  · exact absurd h (not_whole_misfit _)
  · exact whole_of_afterValue h
  · cases h.2
  · exact h

theorem cases_of_finish (h : w.finish.1.Whole) (hnone : w.finish.2 = none) :
    w = .forMore [] w.finish.1 ∨ w = .forNothing w.finish.1 none := by
  have hclose {value : Tree} (hv : ¬ value.Whole) (open_ : List Frame) :
      ¬ (closeAll value open_).Whole := fun h => hv (whole_of_closeAll h).1
  have hnested {container : Tree} (hc : ¬ container.Whole) (outer : List Frame) :
      ¬ (closeAll (nested outer container) outer).Whole :=
    hclose (fun h => hc (nested_whole h).1) outer
  unfold finish at h hnone
  split at h
  · exact absurd h (hclose (Tree.not_whole_broken _ _) _)
  · exact absurd h (hnested (by simp) _)
  · exact absurd h (hnested (by simp) _)
  · exact absurd h (hclose (Tree.not_whole_broken _ _) _)
  · exact absurd h (hclose (Tree.not_whole_broken _ _) _)
  · exact absurd h (hnested (Frame.not_whole_addAndCut _ _ _) _)
  · exact .inl rfl
  · next value excess =>
    obtain rfl : excess = none := hnone
    exact .inr rfl

end Waiting

/-! ### The tokens of what has been read -/

/-- The tokens up to where the innermost of some open containers waits for a value. -/
inductive Opens : List Token → List Frame → Prop
  | nil : Opens [] []
  | array {ts : List Token} {outer : List Frame} (h : Opens ts outer) (js : List Json) :
      Opens (ts ++ .arrayStart :: itemsBefore js) (.array (js.map Tree.ofJson).reverse :: outer)
  | object {ts : List Token} {outer : List Frame} (h : Opens ts outer)
      (ms : List (String × Json)) (name : String) :
      Opens (ts ++ .objectStart :: (membersBefore ms ++ [.string (.string name), .colon]))
        (.object (Tree.ofMembers ms).reverse (.string name) :: outer)

/-- The tokens up to a state without faults. -/
inductive Waiting.Spells : List Token → Waiting → Prop
  | forValue {ts : List Token} {open_ : List Frame} (h : Opens ts open_) :
      Spells ts (.forValue open_)
  | forItem {ts : List Token} {outer : List Frame} (h : Opens ts outer) :
      Spells (ts ++ [.arrayStart]) (.forItem outer)
  | forName {ts : List Token} {outer : List Frame} (h : Opens ts outer)
      (ms : List (String × Json)) :
      Spells (ts ++ .objectStart :: membersBefore ms) (.forName outer (Tree.ofMembers ms).reverse)
  | forColon {ts : List Token} {outer : List Frame} (h : Opens ts outer)
      (ms : List (String × Json)) (name : String) :
      Spells (ts ++ .objectStart :: (membersBefore ms ++ [.string (.string name)]))
        (.forColon outer (Tree.ofMembers ms).reverse (.string name))
  | forMore {ts : List Token} {open_ : List Frame} (h : Opens ts open_) (j : Json) :
      Spells (ts ++ j.toTokens) (.forMore open_ (.ofJson j))

/-- Whether a scalar is read as what it is, if nothing is wrong with it. -/
def Token.IsProper : Token → Prop
  | .string t => t.Whole → ∃ s, t = .string s
  | .scalar t => t.Whole → ∃ j : Json, t = .ofJson j ∧ j.toTokens = [.scalar t]
  | _ => True

namespace Waiting

variable {w : Waiting} {t : Token} {ts : List Token} {open_ outer : List Frame}

theorem Spells.startValue (h : Opens ts open_) (ht : t.IsProper)
    (hw : (startValue open_ t).Whole) : Spells (ts ++ [t]) (startValue open_ t) := by
  cases t with
  | string t =>
    obtain ⟨s, rfl⟩ := ht hw.2
    exact .forMore h (.string s)
  | scalar t =>
    obtain ⟨j, rfl, hj⟩ := ht hw.2
    rw [← hj]
    exact .forMore h j
  | arrayStart => exact .forItem h
  | objectStart => exact .forName h []
  | arrayEnd | objectEnd | comma | colon => exact absurd hw (not_whole_misfit open_)

theorem Spells.afterValue {frame : Frame} (h : Opens ts (frame :: outer)) (j : Json)
    (hw : (afterValue frame outer (.ofJson j) t).Whole) :
    Spells (ts ++ j.toTokens ++ [t]) (afterValue frame outer (.ofJson j) t) := by
  cases h with
  | @array ts _ h js =>
    cases t with
    | comma =>
      have hnext := Spells.forValue (h.array (js ++ [j]))
      simpa [itemsBefore, Waiting.afterValue] using hnext
    | arrayEnd =>
      obtain ⟨-, hsame⟩ := nested_whole hw.2
      have hnext := Spells.forMore h (.array (js ++ [j]))
      rw [toTokens_array_concat, Tree.ofJson, Tree.ofItems_eq_map] at hnext
      rw [Waiting.afterValue, hsame]
      simpa [Frame.add] using hnext
    | arrayStart | objectStart | objectEnd | colon | string | scalar =>
      exact absurd hw (not_whole_cut _ _ _ _)
  | @object ts _ h ms name =>
    cases t with
    | comma =>
      have hnext := Spells.forName h (ms ++ [(name, j)])
      simpa [membersBefore, Tree.ofMembers_eq_map, Waiting.afterValue] using hnext
    | objectEnd =>
      obtain ⟨-, hsame⟩ := nested_whole hw.2
      have hnext := Spells.forMore h (.object (ms ++ [(name, j)]))
      rw [toTokens_object_concat, Tree.ofJson] at hnext
      rw [Waiting.afterValue, hsame]
      simpa [Frame.add, Tree.ofMembers_eq_map] using hnext
    | arrayStart | objectStart | arrayEnd | colon | string | scalar =>
      exact absurd hw (not_whole_cut _ _ _ _)

theorem Spells.step (h : Spells ts w) (ht : t.IsProper) (hw : (w.step t).Whole) :
    Spells (ts ++ [t]) (w.step t) := by
  cases h with
  | forValue h => exact .startValue h ht hw
  | @forItem ts outer h =>
    have hfirst := Spells.startValue (h.array []) ht
    cases t with
    | arrayEnd =>
      obtain ⟨-, hsame⟩ := nested_whole hw.2
      have hnext := Spells.forMore h (.array [])
      rw [Waiting.step, hsame]
      simpa [toTokens, Tree.ofJson, Tree.ofItems] using hnext
    | arrayStart | objectStart | objectEnd | comma | colon | string | scalar => exact hfirst hw
  | @forName ts outer h ms =>
    cases t with
    | string t =>
      obtain ⟨s, rfl⟩ := ht hw.2.2
      simpa [Waiting.step] using Spells.forColon h ms s
    | objectEnd =>
      -- only an object without members may end where a name is waited for
      rcases ms.eq_nil_or_concat with rfl | ⟨ms, m, rfl⟩
      · obtain ⟨-, hsame⟩ := nested_whole hw.2
        have hnext := Spells.forMore h (.object [])
        rw [Tree.ofMembers, List.reverse_nil, Waiting.step, hsame]
        simpa [toTokens, membersBefore, Tree.ofJson, Tree.ofMembers] using hnext
      · rw [List.concat_eq_append, Tree.ofMembers_eq_map, List.map_append,
          List.reverse_append] at hw
        exact absurd hw (not_whole_misfit _)
    | arrayStart | arrayEnd | objectStart | comma | colon | scalar =>
      exact absurd hw (not_whole_misfit _)
  | @forColon ts outer h ms name =>
    cases t with
    | colon => simpa [Waiting.step] using Spells.forValue (h.object ms name)
    | arrayStart | arrayEnd | objectStart | objectEnd | comma | string | scalar =>
      exact absurd hw (not_whole_misfit _)
  | @forMore ts open_ h j =>
    cases open_ with
    | nil => cases hw.2
    | cons frame outer => exact .afterValue h j hw

theorem spells_of_foldl (ht : ∀ t ∈ ts, t.IsProper)
    (hw : (ts.foldl Waiting.step (.forValue [])).Whole) :
    Spells ts (ts.foldl Waiting.step (.forValue [])) := by
  induction ts using List.reverseRecOn with
  | nil => exact .forValue .nil
  | append_singleton ts t ih =>
    rw [List.foldl_concat] at hw ⊢
    have hts := ih (fun t h => ht t (List.mem_append_left _ h)) (whole_of_step hw)
    exact hts.step (ht t (List.mem_append_right _ (List.mem_singleton_self t))) hw

end Waiting

theorem Token.OfText.isProper {t : Token} (h : t.OfText) : t.IsProper := by
  cases h with
  | arrayStart | arrayEnd | objectStart | objectEnd | comma | colon => trivial
  | string s => exact fun _ => ⟨s, rfl⟩
  | null => exact fun _ => ⟨.null, rfl, rfl⟩
  | bool b => exact fun _ => ⟨.bool b, rfl, rfl⟩
  | @number _ n _ => exact fun _ => ⟨.number n, rfl, rfl⟩
  | brokenString | brokenScalar => exact fun ht => absurd ht (Tree.not_whole_broken _ _)
  | unreadableString | unreadableScalar => exact fun ht => absurd ht (Tree.not_whole_unreadable _)

/-- What is read whole is the tree of a value whose tokens the text consists of. -/
theorem exists_json_of_read {bs : List UInt8} {t : Tree} (h : read bs = (t, none))
    (ht : t.Whole) : ∃ j, t = .ofJson j ∧ tokens bs = j.toTokens := by
  have hproper : ∀ t ∈ tokens bs, t.IsProper := fun t ht => (ofText_of_mem_tokens ht).isProper
  have hspells := Waiting.spells_of_foldl hproper
  rw [read] at h
  generalize tokens bs = ts at h hspells
  generalize ts.foldl Waiting.step (.forValue []) = w at h hspells
  have hend := Waiting.cases_of_finish (w := w) (by rwa [h]) (by rw [h])
  rw [h] at hend
  rcases hend with rfl | rfl
  · have hstate := hspells ⟨List.forall_mem_nil _, ht⟩
    cases hstate with
    | forMore hopen j =>
      cases hopen
      exact ⟨j, rfl, rfl⟩
  · cases hspells ⟨ht, rfl⟩

end ParamSweep.Json
