import Mathlib.Algebra.Group.Int.Defs
import Mathlib.Algebra.Group.Nat.Defs
import ParamSweep.Json.Token
import ParamSweep.Json.Printer
import ParamSweep.Proofs.Json.Strings

/-! # Reading printed numbers

A numeral is read alike whatever follows, unless that goes on with the numeral. A printed
number is legible if it is read as the same number wherever it does not run into what
follows. The integers of 64 bits, with or without a sign, are legible.
-/

namespace ParamSweep.Json

/-- A text with which no numeral goes on. -/
def Numeral.Ends (bs : List UInt8) : Prop :=
  ∀ b ∈ bs.head?, isDigit b = false ∧ b ≠ 0x2e ∧ b ≠ 0x65 ∧ b ≠ 0x45

/-- A number whose print is read as the number. -/
def Number.Legible (n : Number) : Prop :=
  ∀ bs, Numeral.Ends bs → tokens (encode n.print ++ bs) = .scalar (.number n) :: tokens bs

namespace Numeral

section Append

variable {bs rest tail : List UInt8}

theorem Ends.noDigit (ht : Ends tail) : ∀ b ∈ tail.head?, isDigit b = false :=
  fun b hb => (ht b hb).1

theorem leadingDigits_append (ht : ∀ b ∈ tail.head?, isDigit b = false) (bs : List UInt8) :
    leadingDigits (bs ++ tail) = leadingDigits bs := by
  have hd : (bs ++ tail).takeWhile isDigit = bs.takeWhile isDigit := by
    induction bs with
    | nil =>
      cases tail with
      | nil => rfl
      | cons b tail => simp [ht b rfl]
    | cons b bs ih => simp [List.takeWhile_cons, ih]
  rw [leadingDigits, hd, leadingDigits]

theorem afterDigits_append (ht : ∀ b ∈ tail.head?, isDigit b = false) (bs : List UInt8) :
    afterDigits (bs ++ tail) = afterDigits bs ++ tail := by
  simp only [afterDigits]
  induction bs with
  | nil =>
    cases tail with
    | nil => rfl
    | cons b tail => simp [ht b rfl]
  | cons b bs ih =>
    by_cases hb : isDigit b = true
    · simpa [hb] using ih
    · simp [hb]

theorem scanWhole_append (ht : Ends tail) {ds : List Nat} (h : scanWhole bs = .ok (ds, rest)) :
    scanWhole (bs ++ tail) = .ok (ds, rest ++ tail) := by
  rw [scanWhole] at h ⊢
  rw [leadingDigits_append ht.noDigit, afterDigits_append ht.noDigit]
  split at h
  · cases h
  · split at h
    · cases h
    · next hz =>
      obtain ⟨rfl, rfl⟩ := Prod.mk.inj (Except.ok.inj h)
      exact if_neg hz

theorem scanFraction?_of_ends (hb : Ends bs) :
    scanFraction? bs = .ok (none, bs) := by
  cases bs with
  | nil => rfl
  | cons b bs =>
    have hd := (hb b rfl).2.1
    rw [scanFraction?]
    simp [hd]

theorem scanFraction?_append (ht : Ends tail) {ds : Option (List Nat)}
    (h : scanFraction? bs = .ok (ds, rest)) :
    scanFraction? (bs ++ tail) = .ok (ds, rest ++ tail) := by
  unfold scanFraction? at h
  split at h
  · split at h
    · cases h
    · next hd =>
      obtain ⟨rfl, rfl⟩ := Prod.mk.inj (Except.ok.inj h)
      rw [List.cons_append, scanFraction?, leadingDigits_append ht.noDigit,
        afterDigits_append ht.noDigit, hd]
  · next hb =>
    obtain ⟨rfl, rfl⟩ := Prod.mk.inj (Except.ok.inj h)
    cases bs with
    | nil => exact scanFraction?_of_ends ht
    | cons b bs =>
      have hb : b ≠ 0x2e := fun h => hb bs (h ▸ rfl)
      simp [scanFraction?, hb]

theorem scanSign_append (h : bs ≠ []) (tail : List UInt8) :
    scanSign (bs ++ tail) = ((scanSign bs).1, (scanSign bs).2 ++ tail) := by
  cases bs with
  | nil => exact absurd rfl h
  | cons b bs =>
    rw [List.cons_append]
    unfold scanSign
    split <;> simp_all

theorem scanExponent_append (ht : Ends tail) {e : Int} (h : scanExponent bs = .ok (e, rest)) :
    scanExponent (bs ++ tail) = .ok (e, rest ++ tail) := by
  have hbs : bs ≠ [] := by
    rintro rfl
    cases h
  simp only [scanExponent, scanSign_append hbs, leadingDigits_append ht.noDigit,
    afterDigits_append ht.noDigit] at h ⊢
  split at h
  · cases h
  · obtain ⟨rfl, rfl⟩ := Prod.mk.inj (Except.ok.inj h)
    rfl

theorem scanExponent?_of_ends (hb : Ends bs) :
    scanExponent? bs = .ok (none, bs) := by
  cases bs with
  | nil => rfl
  | cons b bs =>
    obtain ⟨-, -, he, hE⟩ := hb b rfl
    simp [scanExponent?, he, hE]

theorem scanExponent?_append (ht : Ends tail) {e : Option Int}
    (h : scanExponent? bs = .ok (e, rest)) :
    scanExponent? (bs ++ tail) = .ok (e, rest ++ tail) := by
  cases bs with
  | nil =>
    obtain ⟨rfl, rfl⟩ := Prod.mk.inj (Except.ok.inj h)
    exact scanExponent?_of_ends ht
  | cons b bs =>
    rw [scanExponent?] at h
    rw [List.cons_append, scanExponent?]
    split at h
    · next hb =>
      split at h
      · next he =>
        obtain ⟨rfl, rfl⟩ := Prod.mk.inj (Except.ok.inj h)
        rw [if_pos hb, scanExponent_append ht he]
      · cases h
    · next hb =>
      obtain ⟨rfl, rfl⟩ := Prod.mk.inj (Except.ok.inj h)
      exact if_neg hb

theorem scan_eq_ok {negative : Bool} {n : Numeral} :
    scan negative bs = .ok (n, rest) ↔ n.negative = negative ∧ ∃ r r',
      scanWhole bs = .ok (n.whole, r) ∧ scanFraction? r = .ok (n.fraction, r') ∧
        scanExponent? r' = .ok (n.exponent, rest) := by
  constructor
  · intro h
    unfold scan at h
    split at h
    · cases h
    · next hw =>
      split at h
      · cases h
      · next hf =>
        split at h
        · cases h
        · next he =>
          obtain ⟨rfl, rfl⟩ := Prod.mk.inj (Except.ok.inj h)
          exact ⟨rfl, _, _, hw, hf, he⟩
  · rintro ⟨rfl, r, r', hw, hf, he⟩
    simp only [scan, hw, hf, he]

/-- A numeral is read alike where more text follows, unless that goes on with the numeral. -/
theorem scan_append (ht : Ends tail) {negative : Bool} {n : Numeral}
    (h : scan negative bs = .ok (n, rest)) :
    scan negative (bs ++ tail) = .ok (n, rest ++ tail) := by
  obtain ⟨hn, r, r', hw, hf, he⟩ := scan_eq_ok.mp h
  exact scan_eq_ok.mpr ⟨hn, _, _, scanWhole_append ht hw, scanFraction?_append ht hf,
    scanExponent?_append ht he⟩

theorem digit_of_scan {negative : Bool} {n : Numeral} (h : scan negative bs = .ok (n, rest)) :
    ∃ b bs', bs = b :: bs' ∧ isDigit b = true := by
  obtain ⟨-, r, -, hw, -⟩ := scan_eq_ok.mp h
  cases bs with
  | nil => cases hw
  | cons b bs =>
    refine ⟨b, bs, rfl, ?_⟩
    cases hb : isDigit b with
    | true => rfl
    | false =>
      rw [scanWhole, leadingDigits, List.takeWhile_cons_of_neg (by simp [hb])] at hw
      cases hw

end Append

def digitOf (c : Char) : Nat := c.toNat - 0x30

theorem digitOf_lt {c : Char} (h : c.isDigit = true) : digitOf c < 10 := by
  have h : 48 ≤ c.toNat ∧ c.toNat ≤ 57 := Char.isDigit_iff_toNat.mp h
  rw [digitOf]
  omega

theorem isDigit_ofNat {c : Char} (h : c.isDigit = true) :
    String.utf8EncodeChar c = [.ofNat c.toNat] ∧ isDigit (.ofNat c.toNat) = true ∧
      (UInt8.ofNat c.toNat).toNat - 0x30 = digitOf c := by
  have h : 48 ≤ c.toNat ∧ c.toNat ≤ 57 := Char.isDigit_iff_toNat.mp h
  have hn : (UInt8.ofNat c.toNat).toNat = c.toNat := by
    rw [UInt8.toNat_ofNat', Nat.mod_eq_of_lt (by omega)]
  refine ⟨utf8EncodeChar_of_lt (by omega), ?_, by rw [hn, digitOf]⟩
  simp only [isDigit, Bool.and_eq_true, decide_eq_true_eq, UInt8.le_iff_toNat_le, hn]
  exact h

theorem encode_digits {cs : List Char} (h : ∀ c ∈ cs, c.isDigit = true) (rest : List UInt8)
    (hr : ∀ b ∈ rest.head?, isDigit b = false) :
    leadingDigits (encode cs ++ rest) = cs.map digitOf ∧
      afterDigits (encode cs ++ rest) = rest := by
  rw [leadingDigits_append hr, afterDigits_append hr]
  induction cs with
  | nil => exact ⟨rfl, rfl⟩
  | cons c cs ih =>
    obtain ⟨hc, hcs⟩ := List.forall_mem_cons.mp h
    obtain ⟨he, hd, hv⟩ := isDigit_ofNat hc
    obtain ⟨hl, ha⟩ := ih hcs
    rw [leadingDigits] at hl
    rw [afterDigits] at ha
    rw [encode_cons, he, List.singleton_append]
    constructor
    · rw [leadingDigits, List.takeWhile_cons_of_pos hd, List.map_cons, hv, hl, List.map_cons]
    · rw [afterDigits, List.dropWhile_cons_of_pos hd, ha]

theorem le_foldl (ds : List Nat) (n : Nat) : n ≤ ds.foldl (fun n d => 10 * n + d) n := by
  induction ds generalizing n with
  | nil => exact Nat.le_refl n
  | cons d ds ih => exact Nat.le_trans (by omega) (ih (10 * n + d))

theorem append_eq {ds : List Nat} {n : Nat}
    (h : ds.foldl (fun n d => 10 * n + d) n < UInt64.size) :
    append n ds = (ds.foldl (fun n d => 10 * n + d) n, 0) := by
  induction ds generalizing n with
  | nil => rfl
  | cons d ds ih =>
    have hd := Nat.lt_of_le_of_lt (le_foldl ds (10 * n + d)) h
    rw [append, if_pos hd, ih h]
    rfl

theorem foldl_digits (n : Nat) :
    ((Decimal.digits n).map digitOf).foldl (fun n d => 10 * n + d) 0 = n := by
  rw [List.foldl_map]
  exact Nat.ofDigitChars_toDigits (by decide) (by decide)

theorem isDigit_of_mem_digits {n : Nat} {c : Char} (h : c ∈ Decimal.digits n) :
    c.isDigit = true :=
  Nat.isDigit_of_mem_toDigits (by decide) (by decide) h

/-- The digits of a whole number: a zero stands alone. -/
structure IsWhole (cs : List Char) : Prop where
  digits : ∀ c ∈ cs, c.isDigit = true
  first : ∃ c ds, cs = c :: ds ∧ ¬(digitOf c = 0 ∧ ds ≠ [])

theorem isWhole_digits (n : Nat) : IsWhole (Decimal.digits n) := by
  refine ⟨fun _ => isDigit_of_mem_digits, ?_⟩
  induction n using Nat.base_induction 10 (by decide) with
  | single m hm =>
    exact ⟨_, [], Nat.toDigits_of_lt_base hm, fun h => h.2 rfl⟩
  | digit m k hk hm ih =>
    obtain ⟨c, cs, hc, hz⟩ := ih
    have hd : Decimal.digits (10 * m + k) = Decimal.digits m ++ [k.digitChar] := by
      rw [Decimal.digits, ← Nat.toDigits_append_toDigits (by decide) hm hk,
        Nat.toDigits_of_lt_base hk, Decimal.digits]
    refine ⟨c, cs ++ [k.digitChar], by rw [hd, hc, List.cons_append], fun h => ?_⟩
    by_cases hcs : cs = []
    · have hv := foldl_digits m
      simp [hc, hcs, h.1] at hv
      omega
    · exact hz ⟨h.1, hcs⟩

theorem scanWhole_encode {cs : List Char} (h : IsWhole cs) (rest : List UInt8)
    (hr : ∀ b ∈ rest.head?, isDigit b = false) :
    scanWhole (encode cs ++ rest) = .ok (cs.map digitOf, rest) := by
  obtain ⟨hl, ha⟩ := encode_digits h.digits rest hr
  obtain ⟨c, ds, rfl, hz⟩ := h.first
  rw [scanWhole, hl, ha, List.map_cons]
  simp only [List.map_eq_nil_iff, ne_eq]
  rw [if_neg hz]

theorem scan_digits (negative : Bool) (n : Nat) :
    scan negative (encode (Decimal.digits n)) =
      .ok (⟨negative, (Decimal.digits n).map digitOf, none, none⟩, []) := by
  have hwhole := scanWhole_encode (isWhole_digits n) [] (by simp)
  rw [List.append_nil] at hwhole
  exact scan_eq_ok.mpr ⟨rfl, [], [], hwhole, rfl, rfl⟩

theorem number?_digits (negative : Bool) {n : Nat} (h : n < UInt64.size)
    (hn : negative = true → 0 < n ∧ n ≤ 0x8000000000000000) :
    number? ⟨negative, (Decimal.digits n).map digitOf, none, none⟩ =
      some (.int (if negative then -(n : Int) else n)) := by
  have ha : append 0 ((Decimal.digits n).map digitOf) = (n, 0) := by
    rw [append_eq (by rwa [foldl_digits]), foldl_digits]
  have hi : int? ⟨negative, (Decimal.digits n).map digitOf, none, none⟩ =
      some (if negative then -(n : Int) else n) := by
    simp only [int?, ha]
    cases negative with
    | false => rfl
    | true => exact if_pos (hn rfl)
  rw [number?, hi]

def tree (n : Numeral) : Tree :=
  match n.number? with
  | some m => .number m
  | none => .unreadable (.number (.int 0))

end Numeral

theorem isBlank_of_isDigit {b : UInt8} (h : Numeral.isDigit b = true) :
    Token.isBlank b = false := by
  rw [Bool.eq_false_iff]
  intro hb
  simp only [Token.isBlank, Bool.or_eq_true, beq_iff_eq] at hb
  rcases hb with ((rfl | rfl) | rfl) | rfl <;> simp [Numeral.isDigit] at h

theorem first_of_isDigit {b : UInt8} (h : Numeral.isDigit b = true) (bs : List UInt8) :
    Token.first b bs = Token.ofNumeral false (b :: bs) := by
  unfold Token.first
  split
  case h_12 => rw [if_pos h]
  all_goals simp [Numeral.isDigit] at h

theorem tokens_of_scan {negative : Bool} {cs : List Char} {n : Numeral} {tail : List UInt8}
    (h : Numeral.scan negative (encode cs) = .ok (n, [])) (ht : Numeral.Ends tail) :
    tokens (encode ((if negative then ['-'] else []) ++ cs) ++ tail) =
      .scalar n.tree :: tokens tail := by
  have hof : Token.ofNumeral negative (encode cs ++ tail) = (.scalar n.tree, tail) := by
    simp only [Token.ofNumeral, Numeral.scan_append ht h, Numeral.tree, List.nil_append]
    cases n.number? <;> rfl
  cases negative with
  | true =>
    have he :
        encode ((if true then ['-'] else []) ++ cs) ++ tail = 0x2d :: (encode cs ++ tail) := by
      rw [encode_append, List.append_assoc]
      rfl
    rw [he, tokens, if_neg (by decide)]
    simp only [Token.first, hof]
  | false =>
    obtain ⟨b, bs, hb, hd⟩ := Numeral.digit_of_scan h
    have he : encode ((if false then ['-'] else []) ++ cs) ++ tail = b :: (bs ++ tail) := by
      rw [← List.cons_append, ← hb]
      rfl
    rw [hb, List.cons_append] at hof
    rw [he, tokens, isBlank_of_isDigit hd, if_neg Bool.false_ne_true, first_of_isDigit hd, hof]

theorem Number.legible_int {n : Int} (h : -2 ^ 63 ≤ n) (h' : n < 2 ^ 64) :
    Number.Legible (.int n) := by
  intro bs hb
  have hsize : n.natAbs < UInt64.size := by
    rw [UInt64.size]
    omega
  have hnumber := Numeral.number?_digits (decide (n < 0)) hsize fun hn => by
    rw [decide_eq_true_iff] at hn
    omega
  have hvalue : (if decide (n < 0) = true then -(n.natAbs : Int) else n.natAbs) = n := by
    simp only [decide_eq_true_iff]
    omega
  have htokens := tokens_of_scan (Numeral.scan_digits (decide (n < 0)) n.natAbs) hb
  rw [Numeral.tree, hnumber, hvalue] at htokens
  simpa only [Number.print, printInt, decide_eq_true_iff] using htokens

end ParamSweep.Json
