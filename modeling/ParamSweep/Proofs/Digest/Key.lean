import ParamSweep.Proofs.Digest.Separation
import ParamSweep.Proofs.NameMap

/-! # What a key tells apart

The code of an assignment is that of its entries, one behind another, in the order of their
names. Two assignments have one code exactly if they have the same names with equal values,
so keys tell apart what is different as far as the hash does.
-/

namespace ParamSweep

namespace Digest

theorem separates_byte : Separates (fun _ => True) Eq
    fun b : UInt8 => [Nat.digitChar (b.toNat / 16), Nat.digitChar (b.toNat % 16)] := by
  have hdigit : ∀ m < 16, ∀ n < 16, Nat.digitChar m = Nat.digitChar n → m = n := by decide
  refine Separates.of_length (n := 2) (fun _ => rfl) fun b c _ _ => ⟨fun h => ?_, fun h => h ▸ rfl⟩
  have hb : b.toNat < 256 := b.toNat_lt
  have hc : c.toNat < 256 := c.toNat_lt
  obtain ⟨hhi, hlo⟩ := List.cons.inj h
  have hhi := hdigit _ (by omega) _ (by omega) hhi
  have hlo := hdigit _ (by omega) _ (by omega) (List.cons.inj hlo).1
  exact UInt8.toNat_inj.mp (by omega)

theorem hexadecimal_inj {bs cs : List UInt8} :
    Sha256.hexadecimal bs = Sha256.hexadecimal cs ↔ bs = cs := by
  rw [Sha256.hexadecimal, Sha256.hexadecimal,
    separates_byte.flatMap_eq_iff (fun _ => List.cons_ne_nil _ _) (fun _ _ => trivial)
      (fun _ _ => trivial), List.forall₂_eq_eq_eq]

theorem ofBytes_inj {bs cs : List UInt8} :
    ofBytes bs = ofBytes cs ↔ Sha256.hash bs = Sha256.hash cs :=
  String.ofList_inj.trans ((List.append_right_inj _).trans hexadecimal_inj)

def SameEntry (e f : String × Value) : Prop := e.1 = f.1 ∧ (e.2 == f.2) = true

theorem separates_entry :
    Separates (fun e : String × Value => e.1.utf8ByteSize < 2 ^ 64 ∧ IsPlain e.2) SameEntry
      fun (name, v) => text name ++ value v :=
  (separates_text.part Prod.fst).append (separates_value.part Prod.snd)

end Digest

namespace Assignment

open Digest (SameEntry)

variable {a b : Assignment}

/-- Assignments of plain values to names that say their length in 64 bits. -/
def IsPlain (a : Assignment) : Prop :=
  ∀ e ∈ a.entries, e.1.utf8ByteSize < 2 ^ 64 ∧ Digest.IsPlain e.2

instance (a : Assignment) : Decidable a.IsPlain :=
  inferInstanceAs (Decidable (∀ e ∈ a.entries, _ ∧ _))

/-- The size in front of the entries is not needed to tell them apart, whatever it is. -/
theorem bytes_eq_iff_forall₂ (ha : a.IsPlain) (hb : b.IsPlain) :
    a.bytes = b.bytes ↔ List.Forall₂ SameEntry a.entries b.entries := by
  have hne (e : String × Value) : Digest.text e.1 ++ Digest.value e.2 ≠ [] := by
    cases h : e.2 <;> simp [Digest.value]
  have hentries := Digest.separates_entry.flatMap_eq_iff hne ha hb
  rw [bytes, bytes, Digest.list, Digest.list, ← hentries]
  constructor
  · intro h
    have hn := (Digest.length_word (.ofNat a.entries.length)).trans
      (Digest.length_word (.ofNat b.entries.length)).symm
    exact (List.append_inj h hn).2
  · intro h
    rw [h, (hentries.mp h).length_eq]

theorem beq_iff_forall₂ : a.beq b = true ↔ List.Forall₂ SameEntry a.entries b.entries := by
  rw [Assignment.beq, Bool.and_eq_true, beq_iff_eq, List.all_eq_true, List.forall₂_iff_zip]
  simp [SameEntry]

theorem lookup_rel {es fs : List (String × Value)} (h : List.Forall₂ SameEntry es fs)
    (name : String) :
    Option.Rel (fun v w => (v == w) = true) (es.lookup name) (fs.lookup name) := by
  induction h with
  | nil => exact .none
  | cons hef _ ih =>
    rw [NameMap.lookup_cons_eq, NameMap.lookup_cons_eq, ← hef.1]
    split
    · exact .some hef.2
    · exact ih

theorem beq_iff_get? :
    a.beq b = true ↔
      ∀ name, Option.Rel (fun v w => (v == w) = true) (a.get? name) (b.get? name) := by
  rw [beq_iff_forall₂]
  constructor
  · intro h name
    exact lookup_rel h name
  · intro h
    have hnames : a.names = b.names := NameMap.names_eq fun name => by
      rw [NameMap.mem_names_iff, NameMap.mem_names_iff]
      have := h name
      cases ha : a.get? name <;> cases hb : b.get? name <;> simp_all
    have hlength : a.entries.length = b.entries.length := by
      simpa [NameMap.names] using congrArg List.length hnames
    refine List.forall₂_iff_zip.mpr ⟨hlength, ?_⟩
    rintro ⟨name, v⟩ ⟨name', w⟩ hz
    obtain ⟨i, hi⟩ := List.mem_iff_getElem?.mp hz
    obtain ⟨hv, hw⟩ := List.getElem?_zip_eq_some.mp hi
    have hname : name = name' := by
      have hi := congrArg (·[i]?) hnames
      simpa [NameMap.names, hv, hw] using hi
    subst hname
    have hrel := h name
    rw [a.get?_eq_some_iff.mpr (List.mem_of_getElem? hv),
      b.get?_eq_some_iff.mpr (List.mem_of_getElem? hw)] at hrel
    cases hrel with
    | some hvw => exact ⟨rfl, hvw⟩

/-- Assignments have one code exactly if they are equal, that is, if they have the same names
with equal values, and then one key; so they have if the hash tells their codes apart. -/
theorem bytes_eq_iff (ha : a.IsPlain) (hb : b.IsPlain) :
    (a.bytes = b.bytes ↔ a.beq b = true) ∧
      (a.beq b = true ↔
        ∀ name, Option.Rel (fun v w => (v == w) = true) (a.get? name) (b.get? name)) ∧
      ((Sha256.hash a.bytes = Sha256.hash b.bytes → a.bytes = b.bytes) →
        (a.key = b.key ↔ a.beq b = true)) := by
  have hbytes : a.bytes = b.bytes ↔ a.beq b = true :=
    (bytes_eq_iff_forall₂ ha hb).trans beq_iff_forall₂.symm
  refine ⟨hbytes, beq_iff_get?, fun hhash => ?_⟩
  rw [key, key, Digest.ofBytes_inj, ← hbytes]
  exact ⟨hhash, fun h => h ▸ rfl⟩

/-- Zeros of either sign under one name have one key, and it is not that of assignments whose
names and values run together to the same text, or have the same text in another kind. -/
theorem bytes_eq_iff_of_zeros :
    let a : Assignment := .ofList [("x", .float (.zero false)), ("ab", .string "c")]
    let b : Assignment := .ofList [("ab", .string "c"), ("x", .float (.zero true))]
    let c : Assignment := .ofList [("x", .int 0), ("ab", .string "c")]
    let d : Assignment := .ofList [("x", .float (.zero false)), ("a", .string "bc")]
    a.IsPlain ∧ b.IsPlain ∧ c.IsPlain ∧ d.IsPlain ∧ a ≠ b ∧ a.key = b.key ∧ a.bytes ≠ c.bytes ∧
      a.bytes ≠ d.bytes := by
  intro a b c d
  have ha : a.IsPlain := by decide
  have hb : b.IsPlain := by decide
  have hc : c.IsPlain := by decide
  have hd : d.IsPlain := by decide
  have hab := bytes_eq_iff ha hb
  have hac := bytes_eq_iff ha hc
  have had := bytes_eq_iff ha hd
  refine ⟨ha, hb, hc, hd, by decide, ?_, ?_, ?_⟩
  · have hbytes := hab.1.mpr (by decide)
    exact (hab.2.2 fun _ => hbytes).mpr (by decide)
  · rw [ne_eq, hac.1]
    decide
  · rw [ne_eq, had.1]
    decide

end Assignment

end ParamSweep
