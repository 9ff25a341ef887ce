import Mathlib.Data.List.TakeWhile
import ParamSweep.Proofs.Decimal
import ParamSweep.Proofs.Json.Numerals

/-! # Printed doubles as numerals

A printed double is one numeral behind its sign, with a fraction or an exponent, so it is no
integer. It has a short whole part and no exponent, or it has the digits of its decimal with a
point behind the first.
-/

namespace ParamSweep.Json

namespace Numeral

section Parts

variable {cs : List Char}

theorem scanFraction?_encode (h : ∀ c ∈ cs, c.isDigit = true) (hne : cs ≠ []) (rest : List UInt8)
    (hr : ∀ b ∈ rest.head?, isDigit b = false) :
    scanFraction? (0x2e :: (encode cs ++ rest)) = .ok (some (cs.map digitOf), rest) := by
  obtain ⟨hl, ha⟩ := encode_digits h rest hr
  obtain ⟨c, ds, rfl⟩ := List.exists_cons_of_ne_nil hne
  rw [scanFraction?, hl, ha]
  rfl

theorem scanExponent?_digits (negative : Bool) (n : Nat) :
    scanExponent? (0x65 :: (if negative then 0x2d else 0x2b) :: encode (Decimal.digits n)) =
      .ok (some (if negative then -(n : Int) else n), []) := by
  have hdigits := encode_digits (fun _ => isDigit_of_mem_digits (n := n)) [] (by simp)
  obtain ⟨c, ds, hc, -⟩ := (isWhole_digits n).first
  have hvalue : ofDigits ((Decimal.digits n).map digitOf) = n := foldl_digits n
  rw [List.append_nil] at hdigits
  have hsign : scanSign ((if negative then 0x2d else 0x2b) :: encode (Decimal.digits n)) =
      (negative, encode (Decimal.digits n)) := by
    cases negative <;> rfl
  rw [scanExponent?, if_pos (by decide), scanExponent, hsign]
  simp only [hdigits.1, hdigits.2]
  rw [hc] at hvalue ⊢
  simp only [List.map_cons] at hvalue ⊢
  rw [hvalue]

end Parts

/-! ### The layout of a double -/

/-- Digits of which the first is not zero. -/
structure IsSignificand (cs : List Char) : Prop where
  digits : ∀ c ∈ cs, c.isDigit = true
  first : ∃ c ds, cs = c :: ds ∧ digitOf c ≠ 0

variable {cs : List Char}

theorem isDigit_of_mem_dropZeros {n : Nat} {c : Char}
    (h : c ∈ Layout.dropZeros (Decimal.digits n)) : c.isDigit = true := by
  rw [Layout.dropZeros, List.mem_reverse] at h
  exact isDigit_of_mem_digits (List.mem_reverse.mp ((List.dropWhile_suffix _).subset h))

theorem isSignificand_dropZeros {n : Nat} (hn : 0 < n) :
    IsSignificand (Layout.dropZeros (Decimal.digits n)) := by
  obtain ⟨c, ds, hc, hz⟩ := (isWhole_digits n).first
  have hfirst : digitOf c ≠ 0 := by
    intro h
    have hds : ds = [] := Classical.not_not.mp fun hne => hz ⟨h, hne⟩
    have hv := foldl_digits n
    simp [hc, hds, h] at hv
    omega
  have hc0 : c ≠ '0' := by
    rintro rfl
    exact hfirst rfl
  refine ⟨fun _ => isDigit_of_mem_dropZeros, c, Layout.dropZeros ds, ?_, hfirst⟩
  have hkeep : [c].dropWhile (· == '0') = [c] :=
    List.dropWhile_cons_of_neg (by simpa using hc0)
  rw [hc, Layout.dropZeros, List.reverse_cons, List.dropWhile_append, hkeep, Layout.dropZeros]
  split
  · next hnil => simp [List.isEmpty_iff.mp hnil]
  · rw [List.reverse_append, List.reverse_singleton, List.singleton_append]

theorem isWhole_zero : IsWhole ['0'] :=
  ⟨List.forall_mem_singleton.mpr rfl, '0', [], rfl, fun h => h.2 rfl⟩

theorem scan_point {whole fraction : List Char} (hw : IsWhole whole)
    (hf : ∀ c ∈ fraction, c.isDigit = true) (hne : fraction ≠ []) (negative : Bool) :
    scan negative (encode (whole ++ '.' :: fraction)) =
      .ok (⟨negative, whole.map digitOf, some (fraction.map digitOf), none⟩, []) := by
  have hfraction := scanFraction?_encode hf hne [] (by simp)
  rw [List.append_nil] at hfraction
  have hwhole := scanWhole_encode hw (0x2e :: encode fraction) (by simp [isDigit])
  rw [encode_append]
  exact scan_eq_ok.mpr ⟨rfl, _, _, hwhole, hfraction, rfl⟩

theorem scan_positional (h : IsSignificand cs) (e : Int) (negative : Bool) :
    ∃ whole fraction : List Nat, whole.length ≤ e.natAbs + 1 ∧
      scan negative (encode (Layout.positional cs e)) =
        .ok (⟨negative, whole, some fraction, none⟩, []) := by
  obtain ⟨c, ds, rfl, hc⟩ := h.first
  have hzeros (k : Nat) : ∀ d ∈ List.replicate k '0', d.isDigit = true :=
    fun d hd => List.eq_of_mem_replicate hd ▸ rfl
  rw [Layout.positional]
  split
  · refine ⟨_, _, ?_,
      scan_point isWhole_zero (List.forall_mem_append.mpr ⟨hzeros _, h.digits⟩) ?_ negative⟩
    · exact Nat.le_add_left 1 _
    · exact List.append_ne_nil_of_right_ne_nil _ (List.cons_ne_nil c ds)
  · have hwhole (k j : Nat) : IsWhole ((c :: ds).take (k + 1) ++ List.replicate j '0') := by
      refine ⟨List.forall_mem_append.mpr ⟨fun d hd => ?_, hzeros j⟩,
        c, ds.take k ++ List.replicate j '0', ?_, fun h => hc h.1⟩
      · exact h.digits d (List.mem_of_mem_take hd)
      · rw [List.take_succ_cons, List.cons_append]
    refine ⟨_, _, ?_, scan_point (hwhole _ _) ?_ ?_ negative⟩
    · rw [List.length_map, List.length_append, List.length_take, List.length_replicate]
      omega
    · split
      · exact hzeros 1
      · exact fun d hd => h.digits d (List.mem_of_mem_drop hd)
    · split
      · exact List.cons_ne_nil _ _
      · next hne => simpa using hne

theorem scan_scientific {c : Char} {ds : List Char} (h : IsSignificand (c :: ds)) (e : Int)
    (negative : Bool) :
    scan negative (encode (Layout.scientific layout.plus (c :: ds) e)) =
      .ok (⟨negative, [digitOf c], if ds = [] then none else some (ds.map digitOf), some e⟩,
        []) := by
  have hwhole : IsWhole [c] :=
    ⟨List.forall_mem_singleton.mpr (h.digits c List.mem_cons_self), c, [], rfl, fun h => h.2 rfl⟩
  have hds : ∀ d ∈ ds, d.isDigit = true := fun d hd => h.digits d (List.mem_cons_of_mem c hd)
  have hvalue : (if decide (e < 0) = true then -(e.natAbs : Int) else e.natAbs) = e := by
    simp only [decide_eq_true_iff]
    omega
  have hexponent := scanExponent?_digits (decide (e < 0)) e.natAbs
  rw [hvalue] at hexponent
  generalize hr : 0x65 :: (if decide (e < 0) = true then 0x2d else 0x2b) ::
    encode (Decimal.digits e.natAbs) = r at hexponent
  have he : encode ('e' :: ((if e < 0 then ['-'] else layout.plus) ++ Decimal.digits e.natAbs)) =
      r := by
    rw [← hr, encode_cons, encode_append]
    by_cases hn : e < 0 <;> simp only [hn, decide_true, decide_false] <;> rfl
  have hhead : ∀ b ∈ r.head?, isDigit b = false := by
    rw [← hr]
    simp [isDigit]
  rw [Layout.scientific, encode_append, he, encode_append, List.append_assoc, List.take_succ_cons,
    List.take_zero]
  cases ds with
  | nil =>
    have hfraction : scanFraction? r = .ok (none, r) := by
      rw [← hr]
      rfl
    exact scan_eq_ok.mpr
      ⟨rfl, r, r, scanWhole_encode hwhole r hhead, hfraction, hexponent⟩
  | cons d ds =>
    have hfraction := scanFraction?_encode hds (List.cons_ne_nil d ds) r hhead
    have hpoint := scanWhole_encode hwhole (0x2e :: (encode (d :: ds) ++ r)) (by simp [isDigit])
    exact scan_eq_ok.mpr ⟨rfl, _, r, hpoint, hfraction, hexponent⟩

/-- The numerals that a magnitude is written as. -/
inductive Writes (m : Nat) : Numeral → Prop
  | positional {negative : Bool} {whole fraction : List Nat} (h : whole.length ≤ 16) :
    Writes m ⟨negative, whole, some fraction, none⟩
  /-- The digits of the decimal, of which the first is the whole part. -/
  | scientific {negative : Bool} {c : Char} {ds : List Char}
      (h : Layout.dropZeros (Decimal.digits (Decimal.shortest layout.tie m).coefficient) =
        c :: ds) :
    Writes m ⟨negative, [digitOf c], if ds = [] then none else some (ds.map digitOf),
      some ((Decimal.shortest layout.tie m).exponent +
        ((Decimal.digits (Decimal.shortest layout.tie m).coefficient).length - 1 : Nat))⟩

theorem Writes.int? {m : Nat} {n : Numeral} (h : Writes m n) : n.int? = none := by
  unfold Numeral.int?
  cases h with
  | positional h => rfl
  | scientific h =>
    split
    · next hexponent _ => cases hexponent
    · rfl

/-- A printed double is a numeral behind its sign. -/
theorem scan_printDouble (x : Binary64) :
    ∃ (cs : List Char) (n : Numeral), printDouble x = (if x.isNegative then ['-'] else []) ++ cs ∧
      scan x.isNegative (encode cs) = .ok (n, []) ∧ Writes x.magnitude n := by
  have hbody : ∃ n, scan x.isNegative
      (encode (if x.isZero then ['0', '.', '0'] else layout.positive x.magnitude)) = .ok (n, []) ∧
        Writes x.magnitude n := by
    split
    · exact ⟨_, scan_point isWhole_zero isWhole_zero.digits (by decide) _,
        .positional (by decide)⟩
    · next hzero =>
      have hm : x.magnitude ≠ 0 := by simpa [Binary64.isZero] using hzero
      have hdigits := isSignificand_dropZeros (Decimal.coefficient_shortest_pos layout.tie hm)
      simp only [Layout.positive]
      split
      · next hbounds =>
        obtain ⟨whole, fraction, hlength, hscan⟩ := scan_positional hdigits _ x.isNegative
        have hlowest : layout.lowest = -5 := rfl
        have hhighest : layout.highest = 15 := rfl
        exact ⟨_, hscan, .positional (by omega)⟩
      · obtain ⟨c, ds, hc, -⟩ := hdigits.first
        rw [hc] at hdigits ⊢
        exact ⟨_, scan_scientific hdigits _ x.isNegative, .scientific hc⟩
  obtain ⟨n, hn⟩ := hbody
  exact ⟨_, n, rfl, hn⟩

end Numeral

end ParamSweep.Json
