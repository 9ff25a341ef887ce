import ParamSweep.Proofs.Json.Fields
import ParamSweep.Proofs.Json.Printed
import ParamSweep.Proofs.Json.Range

/-! # Reading printed doubles

A finite double is printed as a numeral that is in range and no integer. So it is read as a
double, and as the same one wherever it stands. Which double that is depends on its digits,
because a numeral may be rounded up to three times. A number that is not finite is written as
`null`, from which no double is read.
-/

namespace ParamSweep

open Json (Decoder)

namespace Binary64

/-- Whether a double is read from the print of another. -/
def Rereads (x y : Binary64) : Prop :=
  Decoder.decodeString Decoder.double (Json.double x).compact = .ok y

def RoundTrips (x : Binary64) : Prop :=
  Json.Decoder.decodeString Json.Decoder.double (Json.double x).compact = .ok x

instance (x : Binary64) : Decidable x.RoundTrips :=
  inferInstanceAs (Decidable (_ = _))

-- 90.33333333333333 is read as a neighbour: its significand has more than 53 bits
example : ¬ (Binary64.ofNat 271 / Binary64.ofNat 3).RoundTrips := by decide +kernel

end Binary64

namespace Json

variable {x y : Binary64}

theorem exists_rereads_of_isFinite (hx : x.isFinite = true) :
    ∃ y, x.Rereads y ∧ ∀ tail, Numeral.Ends tail →
      tokens (encode (printDouble x) ++ tail) = .scalar (.number (.double y)) :: tokens tail := by
  obtain ⟨cs, n, hprint, hscan, hwrites⟩ := Numeral.scan_printDouble x
  obtain ⟨y, hy⟩ := Option.isSome_iff_exists.mp (hwrites.isSome_double? (of_decide_eq_true hx))
  have htokens (tail : List UInt8) (ht : Numeral.Ends tail) :
      tokens (encode (printDouble x) ++ tail) = .scalar (.number (.double y)) :: tokens tail := by
    rw [hprint, tokens_of_scan hscan ht, Numeral.tree, Numeral.number?, hwrites.int?, hy]
    rfl
  refine ⟨y, Decoder.decode_eq_ok.mpr ⟨.number (.double y), ?_, rfl⟩, htokens⟩
  have halone := htokens [] (by simp [Numeral.Ends])
  rw [List.append_nil, tokens] at halone
  rw [Json.double, if_pos hx, compact, print, bytes_ofList, printAt, Number.print, read, halone]
  rfl

theorem isFinite_of_rereads (h : x.Rereads y) : x.isFinite = true := by
  obtain ⟨t, hread, ht⟩ := Decoder.decode_eq_ok.mp h
  refine Classical.byContradiction fun hx => ?_
  have hnull := read_print .compact (j := .null) trivial (Nat.zero_le _)
  rw [double, if_neg hx] at hread
  obtain ⟨rfl, -⟩ := Prod.mk.inj (hnull.symm.trans hread)
  cases ht

/-- A double is read from what is printed exactly for the finite ones. -/
theorem exists_rereads_iff : (∃ y, x.Rereads y) ↔ x.isFinite = true :=
  ⟨fun ⟨_, h⟩ => isFinite_of_rereads h,
    fun hx => (exists_rereads_of_isFinite hx).imp fun _ => And.left⟩

theorem isFinite_of_roundTrips (h : x.RoundTrips) : x.isFinite = true :=
  isFinite_of_rereads h

theorem Number.legible_double (h : x.RoundTrips) : Number.Legible (.double x) := by
  obtain ⟨y, hy, htokens⟩ := exists_rereads_of_isFinite (isFinite_of_roundTrips h)
  obtain rfl : y = x := Except.ok.inj (hy.symm.trans h)
  exact htokens

end Json

end ParamSweep
