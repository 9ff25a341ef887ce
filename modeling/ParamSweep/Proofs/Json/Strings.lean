import ParamSweep.Json.Decoder

/-! # Reading printed strings

The bytes of a text are the codes of its characters, one after another. What the printer
makes of a string is read back as the same string: an escape stands for its character,
and the codes of all other characters pass as they are.
-/

namespace ParamSweep.Json

def encode (cs : List Char) : List UInt8 := cs.flatMap String.utf8EncodeChar

@[simp] theorem encode_nil : encode [] = [] := rfl

theorem encode_append (cs ds : List Char) : encode (cs ++ ds) = encode cs ++ encode ds :=
  List.flatMap_append

theorem encode_cons (c : Char) (cs : List Char) :
    encode (c :: cs) = String.utf8EncodeChar c ++ encode cs :=
  List.flatMap_cons

theorem toByteArray_eq (s : String) : s.toByteArray = (encode s.toList).toByteArray := by
  rw [← String.utf8Encode_toList]
  rfl

theorem bytes_eq_encode (s : String) : Decoder.bytes s = encode s.toList := by
  rw [Decoder.bytes, String.toUTF8_eq_toByteArray, toByteArray_eq, List.data_toByteArray]

theorem bytes_ofList (cs : List Char) : Decoder.bytes (.ofList cs) = encode cs := by
  rw [bytes_eq_encode, String.toList_ofList]

theorem fromUTF8?_encode (s : String) :
    String.fromUTF8? ⟨(encode s.toList).toArray⟩ = some s := by
  have hb : ByteArray.mk (encode s.toList).toArray = s.toByteArray := by
    rw [toByteArray_eq, ← List.data_toByteArray]
  rw [hb, String.fromUTF8?, dif_pos s.isValidUTF8]
  rfl

theorem utf8EncodeChar_of_lt {c : Char} (h : c.toNat < 0x80) :
    String.utf8EncodeChar c = [.ofNat c.toNat] := by
  have hc : c.val.toNat ≤ 0x7f := Nat.le_of_lt_succ h
  rw [String.utf8EncodeChar, if_pos hc]
  rfl

theorem le_ofNat {n : Nat} (h : 0x80 ≤ n) (h' : n < 0x100) : 0x80 ≤ UInt8.ofNat n := by
  rw [UInt8.le_iff_toNat_le, UInt8.toNat_ofNat', Nat.mod_eq_of_lt h']
  exact h

theorem le_of_mem_utf8EncodeChar {c : Char} (h : 0x80 ≤ c.toNat) {b : UInt8}
    (hb : b ∈ String.utf8EncodeChar c) : 0x80 ≤ b := by
  have hc : ¬ c.val.toNat ≤ 0x7f := Nat.not_le_of_gt h
  rw [String.utf8EncodeChar, if_neg hc] at hb
  split at hb
  · simp only [List.mem_cons, List.not_mem_nil, or_false] at hb
    rcases hb with rfl | rfl <;> exact le_ofNat (by omega) (by omega)
  · split at hb
    · simp only [List.mem_cons, List.not_mem_nil, or_false] at hb
      rcases hb with rfl | rfl | rfl <;> exact le_ofNat (by omega) (by omega)
    · simp only [List.mem_cons, List.not_mem_nil, or_false] at hb
      rcases hb with rfl | rfl | rfl | rfl <;> exact le_ofNat (by omega) (by omega)

namespace StringBody

theorem scan_byte {b : UInt8} (bs : List UInt8) (hq : b ≠ 0x22) (hs : b ≠ 0x5c)
    (hc : ¬ b < 0x20) : scan (b :: bs) = (scan bs).cons (.byte b) := by
  rw [scan, if_neg hc] <;> simp_all

theorem scan_bytes {cs : List UInt8} (h : ∀ b ∈ cs, b ≠ 0x22 ∧ b ≠ 0x5c ∧ ¬ b < 0x20)
    (bs : List UInt8) :
    scan (cs ++ bs) = ⟨cs.map .byte ++ (scan bs).pieces, (scan bs).rest⟩ := by
  induction cs with
  | nil => rfl
  | cons c cs ih =>
    obtain ⟨⟨hq, hs, hc⟩, hcs⟩ := List.forall_mem_cons.mp h
    rw [List.cons_append, scan_byte _ hq hs hc, ih hcs]
    rfl

end StringBody

/-- The pieces of a printed character: a unit for the escape of a number, else its bytes. -/
def Piece.ofChar (c : Char) : List Piece :=
  if c.toNat < 0x20 ∧ c ∉ ['\x08', '\x0c', '\n', '\r', '\t'] then [.unit c.toNat]
  else (String.utf8EncodeChar c).map .byte

namespace StringBody

theorem utf8EncodeChar_of_ge {c : Char} (hq : c ≠ '"') (hs : c ≠ '\\') (hc : ¬ c.toNat < 0x20) :
    ∀ b ∈ String.utf8EncodeChar c, b ≠ 0x22 ∧ b ≠ 0x5c ∧ ¬ b < 0x20 := by
  intro b hb
  by_cases h : c.toNat < 0x80
  · rw [utf8EncodeChar_of_lt h, List.mem_singleton] at hb
    have hn : b.toNat = c.toNat := by rw [hb, UInt8.toNat_ofNat', Nat.mod_eq_of_lt (by omega)]
    have hne : ∀ d : Char, c ≠ d → c.toNat ≠ d.toNat := fun d hd he => hd (Char.toNat_inj.mp he)
    refine ⟨fun he => hne _ hq ?_, fun he => hne _ hs ?_, fun hlt => hc ?_⟩
    · rw [← hn, he]; rfl
    · rw [← hn, he]; rfl
    · rw [← hn]; exact UInt8.lt_iff_toNat_lt.mp hlt
  · have hb := le_of_mem_utf8EncodeChar (Nat.le_of_not_lt h) hb
    rw [UInt8.le_iff_toNat_le] at hb
    refine ⟨?_, ?_, fun hlt => ?_⟩
    · rintro rfl; simp at hb
    · rintro rfl; simp at hb
    · rw [UInt8.lt_iff_toNat_lt] at hlt
      simp at hb hlt
      omega

theorem unit?_control : ∀ n < 0x20,
    (Nat.digitChar (n / 16)).toNat < 0x80 ∧ (Nat.digitChar (n % 16)).toNat < 0x80 ∧
      unit? 0x30 0x30 (.ofNat (Nat.digitChar (n / 16)).toNat)
        (.ofNat (Nat.digitChar (n % 16)).toNat) = some n := by
  decide

theorem scan_escaped (c : Char) (bs : List UInt8) :
    scan (encode (escaped c) ++ bs) =
      ⟨Piece.ofChar c ++ (scan bs).pieces, (scan bs).rest⟩ := by
  unfold escaped
  split
  · rfl
  · rfl
  · rfl
  · rfl
  · rfl
  · rfl
  · rfl
  · rename_i hq hs hb hf hn hr ht
    have hm : c ∉ ['\x08', '\x0c', '\n', '\r', '\t'] := by
      simpa using ⟨hb, hf, hn, hr, ht⟩
    split
    · rename_i hc
      obtain ⟨hhi, hlo, hu⟩ := unit?_control c.toNat hc
      have he : encode ['\\', 'u', '0', '0', Nat.digitChar (c.toNat / 16),
          Nat.digitChar (c.toNat % 16)] ++ bs =
          0x5c :: 0x75 :: 0x30 :: 0x30 :: .ofNat (Nat.digitChar (c.toNat / 16)).toNat ::
            .ofNat (Nat.digitChar (c.toNat % 16)).toNat :: bs := by
        simp only [encode, List.flatMap_cons, utf8EncodeChar_of_lt hhi, utf8EncodeChar_of_lt hlo]
        rfl
      rw [he, scan, hu, Piece.ofChar, if_pos ⟨hc, hm⟩]
      rfl
    · rename_i hc
      rw [encode_cons, encode_nil, List.append_nil, Piece.ofChar, if_neg fun h => hc h.1]
      exact scan_bytes (utf8EncodeChar_of_ge hq hs hc) bs

theorem scan_printed (cs : List Char) (bs : List UInt8) :
    scan (encode (cs.flatMap escaped) ++ 0x22 :: bs) = ⟨cs.flatMap Piece.ofChar, .ok bs⟩ := by
  induction cs with
  | nil => rfl
  | cons c cs ih =>
    rw [List.flatMap_cons, encode_append, List.append_assoc, scan_escaped, ih, List.flatMap_cons]

end StringBody

namespace Piece

theorem bytes?_bytes (bs : List UInt8) (ps : List Piece) :
    bytes? (bs.map .byte ++ ps) = (bytes? ps).map (bs ++ ·) := by
  induction bs with
  | nil => simp
  | cons b bs ih =>
    rw [List.map_cons, List.cons_append, bytes?, ih, Option.map_map]
    rfl

theorem bytes?_unit {n : Nat} (hhi : isHigh n = false) (hlo : isLow n = false)
    (ps : List Piece) : bytes? (.unit n :: ps) = (bytes? ps).map (encode n ++ ·) := by
  cases ps with
  | nil => simp [bytes?, hhi, hlo]
  | cons p ps => cases p <;> simp [bytes?, hhi, hlo]

theorem bytes?_ofChar (c : Char) (ps : List Piece) :
    bytes? (ofChar c ++ ps) = (bytes? ps).map (String.utf8EncodeChar c ++ ·) := by
  unfold ofChar
  split
  · rename_i h
    have hhi : isHigh c.toNat = false := by simp [isHigh]; omega
    have hlo : isLow c.toNat = false := by simp [isLow]; omega
    rw [List.cons_append, List.nil_append, bytes?_unit hhi hlo, encode, Char.ofNat_toNat]
  · exact bytes?_bytes _ _

theorem bytes?_flatMap_ofChar (cs : List Char) :
    bytes? (cs.flatMap ofChar) = some (Json.encode cs) := by
  induction cs with
  | nil => rfl
  | cons c cs ih => rw [List.flatMap_cons, bytes?_ofChar, ih, Option.map_some, encode_cons]

end Piece

namespace StringBody

/-- A printed string is read as it was. -/
theorem scan_printString (s : String) (bs : List UInt8) :
    (scan (encode (s.toList.flatMap escaped ++ ['"']) ++ bs)).tree = .string s ∧
      (scan (encode (s.toList.flatMap escaped ++ ['"']) ++ bs)).after = bs := by
  have hq : encode ['"'] = [0x22] := rfl
  rw [encode_append, hq, List.append_assoc, List.singleton_append, scan_printed]
  have ht : text? ⟨s.toList.flatMap Piece.ofChar, .ok bs⟩ = some s := by
    rw [text?, Piece.bytes?_flatMap_ofChar]
    exact fromUTF8?_encode s
  exact ⟨by simp only [tree, ht], rfl⟩

end StringBody

end ParamSweep.Json
