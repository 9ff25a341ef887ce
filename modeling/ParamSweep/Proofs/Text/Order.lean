import Mathlib.Data.String.Basic
import ParamSweep.Proofs.Json.Strings

/-! # The order of strings

Strings are ordered by their characters, and bytes as numbers. The code of a character starts
with a byte that says how long it is, and the other bytes are the digits of its number, so
codes are ordered as the characters are. So strings have the order of their bytes.
-/

namespace ParamSweep.Text

open Json (encode)
open Json.Decoder (bytes)

def leadingByte (mark digits : Nat) : UInt8 := .ofNat (digits + mark)

def followingByte (n : Nat) : UInt8 := .ofNat (n % 64 + 0x80)

/-- The codes of numbers, from one byte to four. -/
inductive Code (n : Nat) : List UInt8 → Prop
  | one (h : n < 0x80) : Code n [leadingByte 0 n]
  | two (h : 0x80 ≤ n) (h' : n < 0x800) : Code n [leadingByte 0xc0 (n / 64), followingByte n]
  | three (h : 0x800 ≤ n) (h' : n < 0x10000) :
      Code n [leadingByte 0xe0 (n / 64 / 64), followingByte (n / 64), followingByte n]
  | four (h : 0x10000 ≤ n) (h' : n < 0x110000) :
      Code n [leadingByte 0xf0 (n / 64 / 64 / 64), followingByte (n / 64 / 64),
        followingByte (n / 64), followingByte n]

theorem toNat_lt (c : Char) : c.toNat < 0x110000 := by
  have h : c.toNat.isValidChar := c.valid
  unfold Nat.isValidChar at h
  omega

theorem code_utf8EncodeChar (c : Char) : Code c.toNat (String.utf8EncodeChar c) := by
  have hlt := toNat_lt c
  rw [String.utf8EncodeChar, show c.val.toNat = c.toNat from rfl]
  generalize c.toNat = n at hlt
  split
  · exact .one (by omega)
  · split
    · rw [show n / 64 % 32 = n / 64 by omega]
      exact .two (by omega) (by omega)
    · split
      · rw [show n / 4096 % 16 = n / 64 / 64 by omega]
        exact .three (by omega) (by omega)
      · rw [show n / 262144 % 8 = n / 64 / 64 / 64 by omega, show n / 4096 = n / 64 / 64 by omega]
        exact .four (by omega) (by omega)

theorem Code.append_lt {m n : Nat} {bs cs : List UInt8} (hb : Code m bs) (hc : Code n cs)
    (h : m < n) (bs' cs' : List UInt8) : bs ++ bs' < cs ++ cs' := by
  -- the lengths tell the first bytes apart; with equal lengths some digit does
  cases hb <;> cases hc <;>
    simp only [leadingByte, followingByte, List.cons_append, List.nil_append,
      List.cons_lt_cons_iff, UInt8.lt_iff_toNat_lt, ← UInt8.toNat_inj, UInt8.toNat_ofNat'] <;>
    omega

theorem encode_lt {cs ds : List Char} (h : cs < ds) : encode cs < encode ds := by
  induction h with
  | @nil d ds =>
    obtain ⟨b, bs, hd⟩ := List.exists_cons_of_ne_nil (String.utf8EncodeChar_ne_nil (c := d))
    rw [Json.encode_cons, hd]
    exact List.nil_lt_cons _ _
  | @rel c cs d ds hcd =>
    rw [Json.encode_cons, Json.encode_cons]
    exact (code_utf8EncodeChar c).append_lt (code_utf8EncodeChar d) hcd _ _
  | @cons c cs ds _ ih =>
    rw [Json.encode_cons, Json.encode_cons]
    exact List.append_left_lt ih

/-- Strings are in the order of their bytes. -/
theorem lt_iff_bytes_lt {s t : String} : s < t ↔ bytes s < bytes t := by
  have hlt {s t : String} (h : s < t) : bytes s < bytes t := by
    rw [Json.bytes_eq_encode, Json.bytes_eq_encode]
    exact encode_lt (String.lt_iff.mp h)
  refine ⟨hlt, fun h => ?_⟩
  rcases lt_trichotomy s t with hst | rfl | hts
  · exact hst
  · exact absurd h (List.lt_irrefl _)
  · exact absurd h (List.lt_asymm (hlt hts))

end ParamSweep.Text
