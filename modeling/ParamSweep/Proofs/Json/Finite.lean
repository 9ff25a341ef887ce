import ParamSweep.Json.Reader
import ParamSweep.Proofs.Binary64
import ParamSweep.Proofs.Json.Fields
import ParamSweep.Proofs.Json.Tokens

/-! # Numbers that are read

A numeral that is too large is refused, so every number that is read is finite as a double.
-/

namespace ParamSweep.Json

namespace Numeral

theorem append_lt {n : Nat} (h : n < UInt64.size) (ds : List Nat) :
    (append n ds).1 < UInt64.size := by
  induction ds generalizing n with
  | nil => exact h
  | cons d ds ih =>
    rw [append]
    split
    · exact ih ‹_›
    · exact h

theorem isFinite_tenTo {n : Nat} (h : n ≤ 308) : (tenTo n).isFinite = true := by
  have hpow (k : Nat) (hk : n ≤ k) : Nat.pow 10 n ≤ Nat.pow 10 k :=
    Nat.pow_le_pow_right (by decide) hk
  exact Binary64.isFinite_ofNat_of_le (hpow 308 h) (by decide +kernel)

theorem isFinite_div_tenTo {x : Binary64} (h : x.isFinite = true) (e : Nat) :
    (x / tenTo e).isFinite = true := by
  refine Binary64.isFinite_div h (Binary64.isNaN_nearest _ _ _) ?_
  rw [tenTo, Binary64.ofNat, Binary64.magnitude_nearest]
  exact Binary64.le_nearest (Nat.le_mul_of_pos_left _ (Nat.pow_pos (by decide)))

theorem isFinite_divide {x : Binary64} (h : x.isFinite = true) (e n : Nat) :
    (divide x e n).isFinite = true := by
  induction n generalizing x e with
  | zero => exact isFinite_div_tenTo h e
  | succ n ih =>
    rw [divide]
    split
    · exact isFinite_div_tenTo h e
    · split
      · exact h
      · exact ih (isFinite_div_tenTo h 308) _

theorem isFinite_of_scaled? {s : Nat} (hs : s < UInt64.size) {e : Int} {x : Binary64}
    (h : scaled? s e = some x) : x.isFinite = true := by
  have hf : (Binary64.ofNat s).isFinite = true := Binary64.isFinite_ofNat hs
  simp only [scaled?] at h
  split at h
  · obtain rfl := Option.some.inj h
    exact isFinite_divide hf _ _
  · split at h
    · split at h
      · cases h
      · next hi =>
        obtain rfl := Option.some.inj h
        refine Binary64.isFinite_mul hf (isFinite_tenTo ?_) (by simpa using hi)
        omega
    · split at h
      · obtain rfl := Option.some.inj h
        exact hf
      · cases h

theorem isFinite_of_double? {n : Numeral} {x : Binary64} (h : n.double? = some x) :
    x.isFinite = true := by
  obtain ⟨y, hy, rfl⟩ := Option.map_eq_some_iff.mp h
  have hf : y.isFinite = true :=
    isFinite_of_scaled? (append_lt (append_lt (by decide) _) _) hy
  rw [signed]
  split
  · exact Binary64.isFinite_neg hf
  · exact hf

theorem natAbs_lt_of_int? {n : Numeral} {i : Int} (h : n.int? = some i) : i.natAbs < 2 ^ 64 := by
  have hs : (append 0 n.whole).1 < UInt64.size := append_lt (by decide) _
  rw [UInt64.size] at hs
  unfold int? at h
  split at h
  · next s ha =>
    rw [ha] at hs
    split at h
    · obtain rfl := Option.some.inj h
      exact hs
    · split at h
      · obtain rfl := Option.some.inj h
        omega
      · cases h
  · cases h

theorem isFinite_of_number? {n : Numeral} {m : Number} (h : n.number? = some m) :
    m.toDouble.isFinite = true := by
  unfold number? at h
  split at h
  · next hi =>
    obtain rfl := Option.some.inj h
    exact Binary64.isFinite_ofInt (natAbs_lt_of_int? hi)
  · obtain ⟨x, hx, rfl⟩ := Option.map_eq_some_iff.mp h
    exact isFinite_of_double? hx

end Numeral

/-- Whether all numbers in a tree are finite. What cannot be read does not count. -/
inductive Tree.IsFinite : Tree → Prop
  | intro {t : Tree} (number : ∀ n, t = .number n → n.toDouble.isFinite = true)
      (children : ∀ c ∈ t.children, c.IsFinite) : t.IsFinite

namespace Tree.IsFinite

theorem leaf {t : Tree} (hn : ∀ n, t ≠ .number n) (hc : t.children = []) : t.IsFinite :=
  .intro (fun n h => absurd h (hn n)) (by simp [hc])

@[simp]
theorem number_iff {n : Number} : (Tree.number n).IsFinite ↔ n.toDouble.isFinite = true := by
  constructor
  · rintro ⟨number, -⟩
    exact number n rfl
  · intro h
    refine .intro (fun m hm => ?_) (by simp [children])
    obtain rfl := Tree.number.inj hm
    exact h

@[simp]
theorem string (s : String) : (Tree.string s).IsFinite := .leaf nofun rfl

@[simp]
theorem broken (read skip : Fault) : (Tree.broken read skip).IsFinite := .leaf nofun rfl

@[simp]
theorem unreadable (form : Tree) : (Tree.unreadable form).IsFinite := .leaf nofun rfl

theorem child {t c : Tree} (h : t.IsFinite) (hc : c ∈ t.children) : c.IsFinite := by
  cases h with
  | intro _ children => exact children c hc

@[simp]
theorem array_iff {items : List Tree} {cut : Option Fault} :
    (Tree.array items cut).IsFinite ↔ ∀ t ∈ items, t.IsFinite :=
  ⟨fun h _ ht => h.child ht, fun h => .intro nofun h⟩

@[simp]
theorem object_iff {members : List (Tree × Tree)} {cut : Option Fault} :
    (Tree.object members cut).IsFinite ↔ ∀ m ∈ members, m.2.IsFinite :=
  ⟨fun h _ hm => h.child (List.mem_map_of_mem hm),
    fun h => .intro nofun (List.forall_mem_map.mpr h)⟩

theorem misfit : Json.misfit.IsFinite := .broken _ _

theorem unfinished : Json.unfinished.IsFinite := .broken _ _

theorem nested {t : Tree} (h : t.IsFinite) (outer : List Frame) :
    (Json.nested outer t).IsFinite := by
  rw [Json.nested]
  split
  · exact h
  · exact .unreadable t

end Tree.IsFinite

def Token.IsFinite : Token → Prop
  | .string t | .scalar t => t.IsFinite
  | _ => True

theorem Token.OfText.isFinite {t : Token} (h : t.OfText) : t.IsFinite := by
  cases h with
  | arrayStart | arrayEnd | objectStart | objectEnd | comma | colon => trivial
  | string s => exact .string s
  | null | bool => exact .leaf nofun rfl
  | number hn => exact Tree.IsFinite.number_iff.mpr (Numeral.isFinite_of_number? hn)
  | brokenString | brokenScalar => exact .broken _ _
  | unreadableString | unreadableScalar => exact .unreadable _

-- what an open container holds stands in it latest first
theorem forall_mem_reverse_cons {α : Type} {p : α → Prop} {a : α} {as : List α} (ha : p a)
    (has : ∀ x ∈ as, p x) : ∀ x ∈ (a :: as).reverse, p x :=
  fun x hx => List.forall_mem_cons.mpr ⟨ha, has⟩ x (List.mem_reverse.mp hx)

def Frame.IsFinite : Frame → Prop
  | .array items => ∀ t ∈ items, t.IsFinite
  | .object members _ => ∀ m ∈ members, m.2.IsFinite

namespace Frame.IsFinite

variable {f : Frame} {value : Tree}

theorem add (h : f.IsFinite) (hv : value.IsFinite) : (f.add value).IsFinite := by
  cases f with
  | array items => exact Tree.IsFinite.array_iff.mpr (forall_mem_reverse_cons hv h)
  | object members name => exact Tree.IsFinite.object_iff.mpr (forall_mem_reverse_cons hv h)

theorem addAndCut (h : f.IsFinite) (hv : value.IsFinite) (fault : Fault) :
    (f.addAndCut value fault).IsFinite := by
  cases f with
  | array items => exact Tree.IsFinite.array_iff.mpr (forall_mem_reverse_cons hv h)
  | object members name => exact Tree.IsFinite.object_iff.mpr (forall_mem_reverse_cons hv h)

end Frame.IsFinite

theorem isFinite_closeAll {value : Tree} (h : value.IsFinite) {open_ : List Frame}
    (ho : ∀ f ∈ open_, f.IsFinite) : (closeAll value open_).IsFinite := by
  induction open_ generalizing value with
  | nil => exact h
  | cons frame outer ih =>
    obtain ⟨hf, ho⟩ := List.forall_mem_cons.mp ho
    exact ih ((hf.add h).nested outer) ho

def Waiting.IsFinite : Waiting → Prop
  | .forValue open_ => ∀ f ∈ open_, f.IsFinite
  | .forItem outer => ∀ f ∈ outer, f.IsFinite
  | .forName outer members | .forColon outer members _ =>
    (∀ f ∈ outer, f.IsFinite) ∧ ∀ m ∈ members, m.2.IsFinite
  | .forMore open_ value => (∀ f ∈ open_, f.IsFinite) ∧ value.IsFinite
  | .forNothing value _ => value.IsFinite

namespace Waiting

theorem isFinite_startValue {open_ : List Frame} (h : ∀ f ∈ open_, f.IsFinite) {t : Token}
    (ht : t.IsFinite) : (startValue open_ t).IsFinite := by
  cases t with
  | string t => exact ⟨h, ht⟩
  | scalar t => exact ⟨h, ht⟩
  | arrayStart => exact h
  | objectStart => exact ⟨h, nofun⟩
  | arrayEnd | objectEnd | comma | colon => exact isFinite_closeAll .misfit h

theorem isFinite_afterValue {frame : Frame} {outer : List Frame} {value : Tree}
    (hf : frame.IsFinite) (ho : ∀ f ∈ outer, f.IsFinite) (hv : value.IsFinite) (t : Token) :
    (afterValue frame outer value t).IsFinite := by
  unfold afterValue
  split
  · exact List.forall_mem_cons.mpr ⟨List.forall_mem_cons.mpr ⟨hv, hf⟩, ho⟩
  · exact ⟨ho, List.forall_mem_cons.mpr ⟨hv, hf⟩⟩
  · exact ⟨ho, (hf.add hv).nested outer⟩
  · exact ⟨ho, (hf.add hv).nested outer⟩
  · exact isFinite_closeAll ((hf.addAndCut hv _).nested outer) ho

theorem IsFinite.step {w : Waiting} (h : w.IsFinite) {t : Token} (ht : t.IsFinite) :
    (w.step t).IsFinite := by
  unfold Waiting.step
  split
  · exact isFinite_startValue h ht
  · exact ⟨h, .nested (by simp) _⟩
  · exact isFinite_startValue (List.forall_mem_cons.mpr ⟨by simp [Frame.IsFinite], h⟩) ht
  · exact h
  · exact ⟨h.1, .nested (by simp) _⟩
  · exact isFinite_closeAll .misfit (List.forall_mem_cons.mpr ⟨h.2, h.1⟩)
  · exact List.forall_mem_cons.mpr ⟨h.2, h.1⟩
  · exact isFinite_closeAll .misfit (List.forall_mem_cons.mpr ⟨h.2, h.1⟩)
  · obtain ⟨hf, ho⟩ := List.forall_mem_cons.mp h.1
    exact isFinite_afterValue hf ho h.2 t
  · exact h.2
  · exact h

theorem IsFinite.foldl {ts : List Token} (ht : ∀ t ∈ ts, t.IsFinite) {w : Waiting}
    (h : w.IsFinite) : (ts.foldl Waiting.step w).IsFinite := by
  induction ts generalizing w with
  | nil => exact h
  | cons t ts ih =>
    obtain ⟨ht, hts⟩ := List.forall_mem_cons.mp ht
    exact ih hts (h.step ht)

theorem IsFinite.finish {w : Waiting} (h : w.IsFinite) : w.finish.1.IsFinite := by
  unfold Waiting.finish
  split
  · exact isFinite_closeAll .unfinished h
  · exact isFinite_closeAll (.nested (by simp) _) h
  · exact isFinite_closeAll (.nested (by simp) _) h.1
  · exact isFinite_closeAll .misfit (List.forall_mem_cons.mpr ⟨h.2, h.1⟩)
  · exact isFinite_closeAll .unfinished (List.forall_mem_cons.mpr ⟨h.2, h.1⟩)
  · obtain ⟨hf, ho⟩ := List.forall_mem_cons.mp h.1
    exact isFinite_closeAll ((hf.addAndCut h.2 _).nested _) ho
  · exact h.2
  · exact h

end Waiting

/-- All numbers that are read from a text are finite. -/
theorem isFinite_read (bs : List UInt8) : (read bs).1.IsFinite := by
  have hstart : (Waiting.forValue []).IsFinite := nofun
  exact (hstart.foldl fun _ ht => (ofText_of_mem_tokens ht).isFinite).finish

end ParamSweep.Json
