import Mathlib.Algebra.Group.Nat.Defs
import ParamSweep.Instant.Reader
import ParamSweep.Proofs.Except

/-! # Instants and their texts

An instant that can be named is read back from its text, and every instant that is read
can be named.
-/

namespace ParamSweep.Instant

/-- A date of the calendar with a second of the day. A leap second stands at the end of a
minute. -/
structure IsReal (i : Instant) : Prop where
  date : i.date.isValid = true
  second : i.second < secondsPerDay
  nanos : i.nanos < 2 * nanosPerSecond
  leap : nanosPerSecond ≤ i.nanos → i.second % 60 = 59

theorem length_padded {width n : Nat} (hw : 0 < width) (h : n < 10 ^ width) :
    (padded width n).length = width := by
  have hl : (Decimal.digits n).length ≤ width :=
    (Nat.length_toDigits_le_iff (by decide) hw).mpr h
  rw [padded, List.length_append, List.length_replicate]
  omega

theorem isDigit_of_mem_padded {width n : Nat} {c : Char} (h : c ∈ padded width n) :
    c.isDigit = true := by
  rcases List.mem_append.mp h with h | h
  · rw [List.eq_of_mem_replicate h]
    rfl
  · exact Nat.isDigit_of_mem_toDigits (by decide) (by decide) h

theorem padded_ne_nil (width n : Nat) : padded width n ≠ [] := by
  simp [padded, Decimal.digits]

namespace Reader

theorem ofDigits_padded (width n : Nat) : ofDigits (padded width n) = n := by
  have hd : ∀ cs, ofDigits cs = Nat.ofDigitChars 10 cs 0 := fun _ => rfl
  rw [padded, hd, Nat.ofDigitChars_append, Nat.ofDigitChars_replicate_zero, Nat.mul_zero]
  exact Nat.ofDigitChars_toDigits (by decide) (by decide)

theorem number_digits {width : Nat} {cs rest : List Char} (hne : cs ≠ [])
    (hd : ∀ c ∈ cs, c.isDigit = true) (hw : cs.length ≤ width)
    (hr : cs.length = width ∨ ∀ c ∈ rest.head?, c.isDigit = false)
    (hv : ofDigits cs < 0x8000000000000000) :
    number width (cs ++ rest) = .ok (ofDigits cs, rest) := by
  have htake : ((cs ++ rest).take width).takeWhile Char.isDigit = cs := by
    rw [List.take_append, List.take_of_length_le hw, List.takeWhile_append_of_pos hd]
    rcases hr with hr | hr
    · rw [hr, Nat.sub_self, List.take_zero, List.takeWhile_nil, List.append_nil]
    · cases hk : width - cs.length with
      | zero => simp
      | succ k =>
        cases rest with
        | nil => simp
        | cons c rest => simp [hr c rfl]
  obtain ⟨c, cs', rfl⟩ := List.exists_cons_of_ne_nil hne
  have hc := hd c List.mem_cons_self
  rw [List.cons_append] at htake ⊢
  simp only [number, htake, hc, if_true, if_pos hv]
  rw [← List.cons_append, List.drop_left]

theorem trimStart_of_not_blank {c : Char} (h : Text.isBlank c = false) (cs : List Char) :
    Text.trimStart (c :: cs) = c :: cs := by
  rw [Text.trimStart, List.dropWhile_cons_of_neg (by simp [h])]

theorem isBlank_of_isDigit {c : Char} (h : c.isDigit = true) : Text.isBlank c = false := by
  obtain ⟨hlo, hhi⟩ : 48 ≤ c.val.toNat ∧ c.val.toNat ≤ 57 := by
    simpa [Char.isDigit, UInt32.le_iff_toNat_le] using h
  have hne : ∀ d : Char, d.val.toNat < 48 ∨ 57 < d.val.toNat → c ≠ d := by
    rintro d hd rfl
    omega
  have hle : ¬ '\u2000' ≤ c := by
    rw [Char.le_def, UInt32.le_iff_toNat_le]
    simp only [Char.reduceVal, UInt32.reduceToNat]
    omega
  simp [Text.isBlank, hne, hle]

theorem trimStart_padded (width n : Nat) (rest : List Char) :
    Text.trimStart (padded width n ++ rest) = padded width n ++ rest := by
  obtain ⟨c, cs, hc⟩ := List.exists_cons_of_ne_nil (padded_ne_nil width n)
  have hd : c.isDigit = true := isDigit_of_mem_padded (hc ▸ List.mem_cons_self)
  rw [hc, List.cons_append, trimStart_of_not_blank (isBlank_of_isDigit hd)]

theorem number_padded {width n : Nat} (hw : 0 < width) (h : n < 10 ^ width)
    (h' : n < 0x8000000000000000) (rest : List Char) :
    number width (padded width n ++ rest) = .ok (n, rest) := by
  have hl := length_padded hw h
  rw [number_digits (padded_ne_nil _ _) (fun c => isDigit_of_mem_padded) (Nat.le_of_eq hl) (.inl hl)
    (by rwa [ofDigits_padded]), ofDigits_padded]

theorem field_padded {n : Nat} (low high : Nat) (h : low ≤ n) (h' : n ≤ high) (hn : n < 100)
    (rest : List Char) : field low high (padded 2 n ++ rest) = .ok (n, rest) := by
  rw [field, trimStart_padded, number_padded (by decide) hn (by omega)]
  simp [bind, Except.bind, h, h', pure, Except.pure]

theorem mark_self {c : Char} (h : Text.isBlank c = false) (rest : List Char) :
    mark c (c :: rest) = .ok rest := by
  rw [mark, trimStart_of_not_blank h]
  exact if_pos rfl

theorem number_signed {n : Nat} (h : n < 0x8000000000000000) (rest : List Char) :
    number (padded 4 n ++ '-' :: rest).length (padded 4 n ++ '-' :: rest) =
      .ok (n, '-' :: rest) := by
  rw [number_digits (padded_ne_nil _ _) (fun c => isDigit_of_mem_padded) (by simp)
    (.inr (by simp)) (by rwa [ofDigits_padded]), ofDigits_padded]

theorem year_yearText {y : Int} (h : -0x80000000 ≤ y) (h' : y < 0x80000000) (rest : List Char) :
    year (yearText y ++ '-' :: rest) = .ok (y, '-' :: rest) := by
  have hbound : -0x80000000 ≤ y ∧ y < 0x80000000 := ⟨h, h'⟩
  by_cases hy : 0 ≤ y ∧ y ≤ 9999
  · obtain ⟨c, cs, hc⟩ := List.exists_cons_of_ne_nil (padded_ne_nil 4 y.toNat)
    have hd : c.isDigit = true := isDigit_of_mem_padded (hc ▸ List.mem_cons_self)
    have hn : number 4 (padded 4 y.toNat ++ '-' :: rest) = .ok (y.toNat, '-' :: rest) :=
      number_padded (by decide) (by omega) (by omega) _
    have hi : (y.toNat : Int) = y := by omega
    rw [yearText, if_pos hy, year, trimStart_padded]
    rw [hc, List.cons_append] at hn ⊢
    split
    · next heq =>
      obtain rfl := (List.cons.inj heq).1
      exact absurd hd (by decide)
    · next heq =>
      obtain rfl := (List.cons.inj heq).1
      exact absurd hd (by decide)
    · simp only [hn]
      rw [ok_bind, pure_bind, hi]
      exact if_pos hbound
  · have hn := number_signed (n := y.natAbs) (by omega) rest
    rw [yearText, if_neg hy, year]
    by_cases hneg : y < 0
    · have hi : -(y.natAbs : Int) = y := by omega
      rw [if_pos hneg, List.cons_append, trimStart_of_not_blank (by decide)]
      simp only [hn]
      rw [ok_bind, pure_bind, hi]
      exact if_pos hbound
    · have hi : (y.natAbs : Int) = y := by omega
      rw [if_neg hneg, List.cons_append, trimStart_of_not_blank (by decide)]
      simp only [hn]
      rw [ok_bind, pure_bind, hi]
      exact if_pos hbound

theorem date_dateText {d : Date} (h : d.isValid = true) (rest : List Char) :
    date (dateText d ++ rest) = .ok (d, rest) := by
  simp only [Date.isValid, Bool.and_eq_true, decide_eq_true_eq] at h
  obtain ⟨⟨⟨⟨⟨hy, hy'⟩, hm⟩, hm'⟩, hd⟩, hd'⟩ := h
  rw [Date.minYear] at hy
  rw [Date.maxYear] at hy'
  have hlast : Date.daysIn d.year d.month ≤ 31 := by
    unfold Date.daysIn
    split
    · split <;> decide
    · split <;> decide
  have hyear := year_yearText (y := d.year) (by omega) (by omega)
    (padded 2 d.month ++ '-' :: (padded 2 d.day ++ rest))
  have hmonth := field_padded 1 12 hm hm' (by omega) ('-' :: (padded 2 d.day ++ rest))
  have hday := field_padded 1 31 hd (Nat.le_trans hd' hlast) (by omega) rest
  have hmark (cs : List Char) : mark '-' ('-' :: cs) = .ok cs := mark_self (by decide) cs
  simp only [date, dateText, List.append_assoc, List.cons_append, hyear, hmonth, hday, hmark,
    bind, Except.bind, pure, Except.pure]

theorem fraction_padded {width n : Nat} (hw : 0 < width) (hw' : width ≤ 9) (h : n < 10 ^ width)
    {rest : List Char} (hr : ∀ c ∈ rest.head?, c.isDigit = false) :
    fraction ('.' :: padded width n ++ rest) = .ok (n * 10 ^ (9 - width), rest) := by
  have hl := length_padded hw h
  have hlt : n < 0x8000000000000000 :=
    Nat.lt_trans (Nat.lt_of_lt_of_le h (Nat.pow_le_pow_right (by decide) hw')) (by decide)
  have hn : number 9 (padded width n ++ rest) = .ok (n, rest) := by
    rw [number_digits (padded_ne_nil _ _) (fun c => isDigit_of_mem_padded)
      (Nat.le_trans (Nat.le_of_eq hl) hw') (.inr hr) (by rwa [ofDigits_padded]), ofDigits_padded]
  have hdrop : rest.dropWhile Char.isDigit = rest := by
    cases rest with
    | nil => rfl
    | cons c rest => rw [List.dropWhile_cons_of_neg (by simp [hr c rfl])]
  have hlen : (padded width n ++ rest).length - rest.length = width := by
    rw [List.length_append, hl, Nat.add_sub_cancel]
  rw [List.cons_append, fraction]
  simp only [hn, bind, Except.bind, pure, Except.pure, hlen, hdrop]
  rfl

theorem fraction_fractionText {nanos : Nat} (h : nanos < nanosPerSecond) (rest : List Char) :
    fraction (fractionText nanos ++ 'Z' :: rest) = .ok (nanos, 'Z' :: rest) := by
  have hz : ∀ c ∈ ('Z' :: rest).head?, c.isDigit = false := by simp
  rw [nanosPerSecond] at h
  unfold fractionText
  split
  · next h0 => rw [h0]; rfl
  · split
    · next hm =>
      rw [fraction_padded (by decide) (by decide) (by omega) hz]
      congr 2
      omega
    · split
      · next hm =>
        rw [fraction_padded (by decide) (by decide) (by omega) hz]
        congr 2
        omega
      · rw [fraction_padded (by decide) (by decide) (by omega) hz]
        congr 2
        omega

theorem time_timeText {i : Instant} (h : i.IsReal) (rest : List Char) :
    time (timeText i.second i.nanos ++ 'Z' :: rest) = .ok ((i.second, i.nanos), 'Z' :: rest) := by
  have hs : i.second < 86400 := h.second
  have hn : i.nanos < 2 * 1000000000 := h.nanos
  have hl : 1000000000 ≤ i.nanos → i.second % 60 = 59 := h.leap
  have hlast : i.second % 60 + i.nanos / nanosPerSecond ≤ 60 := by
    rw [nanosPerSecond]
    omega
  have hfraction := fraction_fractionText (Nat.mod_lt i.nanos (by decide)) rest
  have hsecond := field_padded 0 60 (Nat.zero_le _) hlast (by omega)
    (fractionText (i.nanos % nanosPerSecond) ++ 'Z' :: rest)
  have hminute := field_padded (n := i.second / 60 % 60) 0 59 (by omega) (by omega)
    (by omega)
    (':' :: (padded 2 (i.second % 60 + i.nanos / nanosPerSecond) ++
      (fractionText (i.nanos % nanosPerSecond) ++ 'Z' :: rest)))
  have hhour := field_padded (n := i.second / 3600) 0 23 (by omega) (by omega)
    (by omega)
    (':' :: (padded 2 (i.second / 60 % 60) ++
      ':' :: (padded 2 (i.second % 60 + i.nanos / nanosPerSecond) ++
        (fractionText (i.nanos % nanosPerSecond) ++ 'Z' :: rest))))
  have hmark (cs : List Char) : mark ':' (':' :: cs) = .ok cs := mark_self (by decide) cs
  simp only [time, timeText, List.append_assoc, List.cons_append, hhour, hmark, hminute, hsecond,
    hfraction, bind, Except.bind, pure, Except.pure]
  rw [nanosPerSecond]
  split
  · congr 3 <;> omega
  · congr 3 <;> omega

theorem toUniversal_zero {i : Instant} (h : i.IsReal) :
    toUniversal i.date i.second i.nanos 0 = .ok i := by
  have hs : i.second < 86400 := h.second
  have hn : ¬ (i.second : Int) < 0 := by omega
  have hd : ¬ (secondsPerDay : Int) ≤ i.second := by
    rw [secondsPerDay]
    omega
  rw [toUniversal, if_pos (by decide)]
  simp only [Int.sub_zero, if_neg hn, if_neg hd, Int.toNat_natCast]
  exact if_pos h.date

end Reader

/-- A real instant is read back from its text. -/
theorem ofText_text {i : Instant} (h : i.IsReal) : ofText i.text = .ok i := by
  have hdate := Reader.date_dateText h.date ('T' :: (timeText i.second i.nanos ++ ['Z']))
  have htime := Reader.time_timeText h []
  have hdivider (cs : List Char) : Reader.divider ('T' :: cs) = .ok cs := rfl
  have htrim : Text.trimStart ['Z'] = ['Z'] := by decide
  have hoffset : Reader.offset ['Z'] = .ok (0, []) := by rfl
  rw [ofText, text, String.toList_ofList, Reader.read]
  simp only [List.append_assoc, List.cons_append, hdate, hdivider, htime, htrim, hoffset,
    ok_bind, h.date]
  exact Reader.toUniversal_zero h

/-! ### What is read is real -/

namespace Reader

theorem digitValue_le {c : Char} (h : c.isDigit = true) : digitValue c ≤ 9 := by
  simp only [Char.isDigit, Bool.and_eq_true, decide_eq_true_eq, UInt32.le_iff_toNat_le] at h
  have hc : c.toNat ≤ 57 := h.2
  have h0 : '0'.toNat = 48 := rfl
  rw [digitValue]
  omega

theorem ofDigits_lt {cs : List Char} (h : ∀ c ∈ cs, c.isDigit = true) :
    ofDigits cs < 10 ^ cs.length := by
  induction cs with
  | nil => decide
  | cons c cs ih =>
    have hc : digitValue c ≤ 9 := digitValue_le (h c List.mem_cons_self)
    have hcs : ofDigits cs < 10 ^ cs.length := ih fun d hd => h d (List.mem_cons_of_mem _ hd)
    have hcons : ofDigits (c :: cs) = 10 ^ cs.length * digitValue c + ofDigits cs := by
      have hinit : (10 * 0 + digitValue c) = digitValue c := by omega
      rw [ofDigits, List.foldl_cons, hinit]
      exact Nat.ofDigitChars_eq_ofDigitChars_zero
    calc ofDigits (c :: cs)
        < 10 ^ cs.length * digitValue c + 10 ^ cs.length := by omega
      _ = 10 ^ cs.length * (digitValue c + 1) := by rw [Nat.mul_add, Nat.mul_one]
      _ ≤ 10 ^ cs.length * 10 := Nat.mul_le_mul_left _ (by omega)
      _ = 10 ^ (c :: cs).length := by rw [List.length_cons, Nat.pow_succ]

theorem lt_of_number {width n : Nat} {cs rest : List Char} (h : number width cs = .ok (n, rest)) :
    n < 10 ^ (cs.length - rest.length) ∧ cs.length - rest.length ≤ width := by
  unfold number at h
  split at h
  · cases h
  · next c cs =>
    split at h
    · dsimp only at h
      split at h
      · obtain ⟨rfl, rfl⟩ := Prod.mk.inj (Except.ok.inj h)
        have hl : (((c :: cs).take width).takeWhile Char.isDigit).length ≤
            ((c :: cs).take width).length := (List.takeWhile_prefix _).length_le
        rw [List.length_take] at hl
        have hr : (c :: cs).length - ((c :: cs).drop
            (((c :: cs).take width).takeWhile Char.isDigit).length).length =
              (((c :: cs).take width).takeWhile Char.isDigit).length := by
          rw [List.length_drop]
          omega
        rw [hr]
        exact ⟨ofDigits_lt (List.all_eq_true.mp List.all_takeWhile), by omega⟩
      · cases h
    · cases h

theorem le_of_field {low high n : Nat} {cs rest : List Char}
    (h : field low high cs = .ok (n, rest)) : low ≤ n ∧ n ≤ high := by
  obtain ⟨⟨m, r⟩, -, h⟩ := bind_eq_ok.mp h
  dsimp only at h
  split at h
  · next hm =>
    obtain ⟨rfl, -⟩ := Prod.mk.inj (Except.ok.inj h)
    exact hm
  · cases h

theorem lt_of_fraction {n : Nat} {cs rest : List Char} (h : fraction cs = .ok (n, rest)) :
    n < nanosPerSecond := by
  unfold fraction at h
  split at h
  · next cs =>
    obtain ⟨⟨m, r⟩, hm, h⟩ := bind_eq_ok.mp h
    obtain ⟨rfl, -⟩ := Prod.mk.inj (Except.ok.inj h)
    obtain ⟨hlt, hw⟩ := lt_of_number hm
    have hpow : 10 ^ (cs.length - r.length) * 10 ^ (9 - (cs.length - r.length)) = 10 ^ 9 := by
      rw [← Nat.pow_add, Nat.add_sub_cancel' hw]
    calc m * 10 ^ (9 - (cs.length - r.length))
        < 10 ^ (cs.length - r.length) * 10 ^ (9 - (cs.length - r.length)) :=
          Nat.mul_lt_mul_of_pos_right hlt (Nat.pow_pos (by decide))
      _ = nanosPerSecond := hpow
  · obtain ⟨rfl, -⟩ := Prod.mk.inj (Except.ok.inj h)
    decide

theorem time_bounds {second nanos : Nat} {cs rest : List Char}
    (h : time cs = .ok ((second, nanos), rest)) :
    second < secondsPerDay ∧ nanos < 2 * nanosPerSecond ∧
      (nanosPerSecond ≤ nanos → second % 60 = 59) := by
  obtain ⟨⟨hour, cs₁⟩, hh, h⟩ := bind_eq_ok.mp h
  obtain ⟨cs₂, -, h⟩ := bind_eq_ok.mp h
  obtain ⟨⟨minute, cs₃⟩, hm, h⟩ := bind_eq_ok.mp h
  obtain ⟨cs₄, -, h⟩ := bind_eq_ok.mp h
  obtain ⟨⟨s, cs₅⟩, hs, h⟩ := bind_eq_ok.mp h
  obtain ⟨⟨n, cs₆⟩, hn, h⟩ := bind_eq_ok.mp h
  have hhour := (le_of_field hh).2
  have hminute := (le_of_field hm).2
  have hsecond := (le_of_field hs).2
  have hnanos := lt_of_fraction hn
  obtain ⟨hp, -⟩ := Prod.mk.inj (Except.ok.inj h)
  obtain ⟨rfl, rfl⟩ := Prod.mk.inj hp
  rw [nanosPerSecond] at hnanos ⊢
  rw [secondsPerDay]
  split <;> omega

theorem dvd_of_offsetSize {n : Nat} {cs rest : List Char} (h : offsetSize cs = .ok (n, rest)) :
    60 ∣ n := by
  unfold offsetSize at h
  split at h
  · cases h
  · split at h
    · split at h
      · obtain ⟨⟨minutes, r⟩, -, h⟩ := bind_eq_ok.mp h
        obtain ⟨rfl, -⟩ := Prod.mk.inj (Except.ok.inj h)
        omega
      · cases h
    · cases h

theorem dvd_of_offset {z : Int} {cs rest : List Char} (h : offset cs = .ok (z, rest)) :
    60 ∣ z := by
  unfold offset at h
  split at h
  · cases h
  · split at h
    · obtain ⟨rfl, -⟩ := Prod.mk.inj (Except.ok.inj h)
      exact Int.dvd_zero _
    · split at h
      · obtain ⟨rfl, -⟩ := Prod.mk.inj (Except.ok.inj h)
        exact Int.dvd_zero _
      · split at h
        · obtain ⟨⟨n, r⟩, hn, h⟩ := bind_eq_ok.mp h
          obtain ⟨rfl, -⟩ := Prod.mk.inj (Except.ok.inj h)
          exact Int.natCast_dvd_natCast.mpr (dvd_of_offsetSize hn)
        · split at h
          · obtain ⟨⟨n, r⟩, hn, h⟩ := bind_eq_ok.mp h
            obtain ⟨rfl, -⟩ := Prod.mk.inj (Except.ok.inj h)
            exact Int.dvd_neg.mpr (Int.natCast_dvd_natCast.mpr (dvd_of_offsetSize hn))
          · cases h

theorem isReal_of_toUniversal {d : Date} {second nanos : Nat} {z : Int} {i : Instant}
    (hs : second < secondsPerDay) (hn : nanos < 2 * nanosPerSecond)
    (hl : nanosPerSecond ≤ nanos → second % 60 = 59) (hz : 60 ∣ z)
    (h : toUniversal d second nanos z = .ok i) : i.IsReal := by
  -- The day may change, but the second is the same within its minute.
  have hreal (e : Date) (t : Int) (h0 : 0 ≤ t) (hlt : t < 86400) (hm : t % 60 = second % 60)
      (hok : (if e.isValid then .ok ⟨e, t.toNat, nanos⟩ else .error .impossible) =
        (.ok i : Except ReadError Instant)) : i.IsReal := by
    split at hok
    · next hv =>
      obtain rfl := Except.ok.inj hok
      refine ⟨hv, ?_, hn, fun hleap => ?_⟩
      · show t.toNat < 86400
        omega
      · have := hl hleap
        show t.toNat % 60 = 59
        omega
    · cases hok
  rw [toUniversal] at h
  rw [secondsPerDay] at hs h
  split at h
  · dsimp only at h
    split at h
    · exact hreal _ _ (by omega) (by omega) (by omega) h
    · split at h
      · exact hreal _ _ (by omega) (by omega) (by omega) h
      · exact hreal _ _ (by omega) (by omega) (by omega) h
  · cases h

end Reader

/-- An instant that is read is real. -/
theorem isReal_of_ofText {s : String} {i : Instant} (h : ofText s = .ok i) : i.IsReal := by
  obtain ⟨⟨d, cs₁⟩, -, h⟩ := bind_eq_ok.mp h
  obtain ⟨cs₂, -, h⟩ := bind_eq_ok.mp h
  obtain ⟨⟨⟨second, nanos⟩, cs₃⟩, ht, h⟩ := bind_eq_ok.mp h
  obtain ⟨⟨z, cs₄⟩, hz, h⟩ := bind_eq_ok.mp h
  obtain ⟨hs, hn, hl⟩ := Reader.time_bounds ht
  dsimp only at h
  split at h
  · split at h
    · exact Reader.isReal_of_toUniversal hs hn hl (Reader.dvd_of_offset hz) h
    · cases h
  · cases h

end ParamSweep.Instant
