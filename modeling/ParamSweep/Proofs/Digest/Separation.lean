import Mathlib.Algebra.Group.Nat.Defs
import Mathlib.Data.List.Forall2
import ParamSweep.Digest
import ParamSweep.Proofs.Binary64

/-! # Codes that can be told apart

Codes stand one behind another without marks between them. Still they can be told apart if
of two texts that begin with codes and agree, the codes are those of equal things and the
rests agree too. Words have this property because of their length, texts and lists because
they start with theirs, and what is put together from such parts has it again.
-/

namespace ParamSweep.Digest

variable {α β γ : Type} {P Q : α → Prop} {r q : α → α → Prop} {f g : α → List γ}

/-- Whether codes can be told apart: two texts that begin with codes of things in `P` agree
exactly if the things are related and what follows agrees. -/
def Separates (P : α → Prop) (r : α → α → Prop) (f : α → List γ) : Prop :=
  ∀ ⦃a b : α⦄, P a → P b → ∀ xs ys : List γ, f a ++ xs = f b ++ ys ↔ r a b ∧ xs = ys

namespace Separates

theorem eq_iff (h : Separates P r f) {a b : α} (ha : P a) (hb : P b) : f a = f b ↔ r a b := by
  simpa using h ha hb [] []

theorem of_length {n : Nat} (hn : ∀ a, (f a).length = n)
    (h : ∀ ⦃a b⦄, P a → P b → (f a = f b ↔ r a b)) : Separates P r f := by
  intro a b ha hb xs ys
  rw [← h ha hb]
  constructor
  · intro he
    exact List.append_inj he ((hn a).trans (hn b).symm)
  · rintro ⟨hab, rfl⟩
    rw [hab]

theorem part (h : Separates P r f) (k : β → α) :
    Separates (fun b => P (k b)) (fun b c => r (k b) (k c)) fun b => f (k b) :=
  fun _ _ hb hc => h hb hc

theorem append (hf : Separates P r f) (hg : Separates Q q g) :
    Separates (fun a => P a ∧ Q a) (fun a b => r a b ∧ q a b) fun a => f a ++ g a := by
  rintro a b ⟨hap, haq⟩ ⟨hbp, hbq⟩ xs ys
  rw [List.append_assoc, List.append_assoc, hf hap hbp, hg haq hbq, and_assoc]

theorem flatMap (h : Separates P r f) {as bs : List α} (hn : as.length = bs.length)
    (ha : ∀ a ∈ as, P a) (hb : ∀ b ∈ bs, P b) (xs ys : List γ) :
    as.flatMap f ++ xs = bs.flatMap f ++ ys ↔ List.Forall₂ r as bs ∧ xs = ys := by
  induction as generalizing bs with
  | nil =>
    obtain rfl := List.length_eq_zero_iff.mp hn.symm
    simp
  | cons a as ih =>
    cases bs with
    | nil => cases hn
    | cons b bs =>
      obtain ⟨ha, has⟩ := List.forall_mem_cons.mp ha
      obtain ⟨hb, hbs⟩ := List.forall_mem_cons.mp hb
      rw [List.flatMap_cons, List.flatMap_cons, List.append_assoc, List.append_assoc, h ha hb,
        ih (Nat.succ.inj hn) has hbs, List.forall₂_cons, and_assoc]

/-- Any number of codes up to the end of a text, none of which is empty. -/
theorem flatMap_eq_iff (h : Separates P r f) (hf : ∀ a, f a ≠ []) {as bs : List α}
    (ha : ∀ a ∈ as, P a) (hb : ∀ b ∈ bs, P b) :
    as.flatMap f = bs.flatMap f ↔ List.Forall₂ r as bs := by
  induction as generalizing bs with
  | nil => cases bs <;> simp [hf]
  | cons a as ih =>
    cases bs with
    | nil => simp [hf]
    | cons b bs =>
      obtain ⟨ha, has⟩ := List.forall_mem_cons.mp ha
      obtain ⟨hb, hbs⟩ := List.forall_mem_cons.mp hb
      rw [List.flatMap_cons, List.flatMap_cons, h ha hb, ih has hbs, List.forall₂_cons]

end Separates

theorem length_littleEndian (n k : Nat) : (littleEndian n k).length = k := by
  induction k generalizing n with
  | zero => rfl
  | succ k ih => rw [littleEndian, List.length_cons, ih]

theorem littleEndian_inj {k n m : Nat} (hn : n < 256 ^ k) (hm : m < 256 ^ k) :
    littleEndian n k = littleEndian m k ↔ n = m := by
  induction k generalizing n m with
  | zero => simp_all [littleEndian]
  | succ k ih =>
    rw [Nat.pow_succ] at hn hm
    have hd := ih (Nat.div_lt_of_lt_mul (Nat.mul_comm _ _ ▸ hn))
      (Nat.div_lt_of_lt_mul (Nat.mul_comm _ _ ▸ hm))
    rw [littleEndian, littleEndian, List.cons.injEq, hd, ← UInt8.toNat_inj, UInt8.toNat_ofNat',
      UInt8.toNat_ofNat']
    omega

theorem length_word (w : UInt64) : (word w).length = 8 := length_littleEndian _ _

theorem word_inj {v w : UInt64} : word v = word w ↔ v = w := by
  rw [word, word, littleEndian_inj v.toNat_lt w.toNat_lt, UInt64.toNat_inj]

theorem separates_word : Separates (fun _ => True) Eq word :=
  .of_length length_word fun _ _ _ _ => word_inj

theorem separates_size : Separates (· < 2 ^ 64) Eq size := by
  refine .of_length (fun _ => length_word _) fun m n hm hn => ?_
  rw [size, size, word_inj, ← UInt64.toNat_inj, UInt64.toNat_ofNat', UInt64.toNat_ofNat',
    Nat.mod_eq_of_lt hm, Nat.mod_eq_of_lt hn]

/-- A list starts with its size. -/
theorem Separates.list {f : α → List UInt8} (h : Separates P r f) :
    Separates (fun as => as.length < 2 ^ 64 ∧ ∀ a ∈ as, P a) (List.Forall₂ r) (list f) := by
  rintro as bs ⟨hla, ha⟩ ⟨hlb, hb⟩ xs ys
  rw [Digest.list, Digest.list, List.append_assoc, List.append_assoc, separates_size hla hlb]
  constructor
  · rintro ⟨hn, he⟩
    exact (h.flatMap hn ha hb xs ys).mp he
  · rintro ⟨hr, rfl⟩
    exact ⟨hr.length_eq, (h.flatMap hr.length_eq ha hb xs xs).mpr ⟨hr, rfl⟩⟩

theorem bytes_inj {s t : String} : s.toUTF8.data.toList = t.toUTF8.data.toList ↔ s = t := by
  rw [String.toUTF8_eq_toByteArray, String.toUTF8_eq_toByteArray, ← String.toByteArray_inj,
    ByteArray.ext_iff, Array.toList_inj]

theorem length_bytes (s : String) : s.toUTF8.data.toList.length = s.utf8ByteSize := by
  rw [String.toUTF8_eq_toByteArray, Array.length_toList, ← String.size_toByteArray]
  rfl

theorem separates_text : Separates (·.utf8ByteSize < 2 ^ 64) Eq text := by
  intro s t hs ht xs ys
  rw [text, text, List.append_assoc, List.append_assoc, separates_size hs ht]
  constructor
  · rintro ⟨hn, he⟩
    obtain ⟨hb, hxs⟩ := List.append_inj he (by rw [length_bytes, length_bytes, hn])
    exact ⟨bytes_inj.mp hb, hxs⟩
  · rintro ⟨rfl, rfl⟩
    exact ⟨rfl, rfl⟩

theorem canonical_inj {x y : Binary64} (hx : x.isNaN = false) (hy : y.isNaN = false) :
    canonical x = canonical y ↔ (x == y) = true := by
  have hzero : (Binary64.zero false).isZero = true := rfl
  rw [Binary64.beq_iff hx hy, canonical, canonical]
  cases hzx : x.isZero <;> cases hzy : y.isZero
  · simp
  · have hne : x ≠ .zero false := fun h => by simp [h, hzero] at hzx
    have hxy : x ≠ y := fun h => by simp [h, hzy] at hzx
    simp [hne, hxy]
  · have hne : .zero false ≠ y := fun h => by simp [← h, hzero] at hzy
    have hxy : x ≠ y := fun h => by simp [h, hzy] at hzx
    simp [hne, hxy]
  · simp

/-- Values that are numbers if they are doubles, and short enough to say their length in 64 bits
if they are strings. -/
def IsPlain (v : Value) : Prop :=
  v.isNaN = false ∧ ∀ s ∈ v.asString?, s.utf8ByteSize < 2 ^ 64

instance (v : Value) : Decidable (IsPlain v) :=
  inferInstanceAs (Decidable (_ ∧ ∀ s ∈ v.asString?, _))

theorem separates_value : Separates IsPlain (fun v w => (v == w) = true) value := by
  rintro v w ⟨hv, hsv⟩ ⟨hw, hsw⟩ xs ys
  dsimp only
  cases v <;> cases w
  case bool.bool a b =>
    have hab : (Value.bool a == Value.bool b) = (a == b) := rfl
    rw [hab]
    cases a <;> cases b <;> simp [value]
  case int.int m n =>
    have hmn : (Value.int m == Value.int n) = (m == n) := rfl
    have hword : m.toUInt64 = n.toUInt64 ↔ m = n :=
      ⟨fun h => by rw [← m.toInt64_toUInt64, h, n.toInt64_toUInt64], fun h => h ▸ rfl⟩
    rw [hmn, beq_iff_eq, value, value, List.cons_append, List.cons_append, List.cons_inj_right,
      separates_word trivial trivial, hword]
  case float.float x y =>
    have hxy : (Value.float x == Value.float y) = (x == y) := rfl
    rw [hxy, ← canonical_inj hv hw, value, value, List.cons_append, List.cons_append,
      List.cons_inj_right, separates_word trivial trivial, Binary64.mk.injEq]
  case string.string s t =>
    have hst : (Value.string s == Value.string t) = (s == t) := rfl
    rw [hst, beq_iff_eq, value, value, List.cons_append, List.cons_append, List.cons_inj_right,
      separates_text (hsv s rfl) (hsw t rfl)]
  -- values of different kinds have different letters
  all_goals exact ⟨fun h => absurd (List.cons.inj h).1 (by decide), fun h => nomatch h.1⟩

end ParamSweep.Digest
