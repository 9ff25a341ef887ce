import ParamSweep.Json.Token

/-! # The tokens of a text

Which tokens a text can have, be it JSON or not. What holds of each of them holds of all tokens
that a reader meets.
-/

namespace ParamSweep.Json

inductive Token.OfText : Token → Prop
  | arrayStart : OfText .arrayStart
  | arrayEnd : OfText .arrayEnd
  | objectStart : OfText .objectStart
  | objectEnd : OfText .objectEnd
  | comma : OfText .comma
  | colon : OfText .colon
  | string (s : String) : OfText (.string (.string s))
  | null : OfText (.scalar .null)
  | bool (b : Bool) : OfText (.scalar (.bool b))
  | number {numeral : Numeral} {n : Number} (h : numeral.number? = some n) :
      OfText (.scalar (.number n))
  | brokenString (read skip : Fault) : OfText (.string (.broken read skip))
  | brokenScalar (read skip : Fault) : OfText (.scalar (.broken read skip))
  | unreadableString (form : Tree) : OfText (.string (.unreadable form))
  | unreadableScalar (form : Tree) : OfText (.scalar (.unreadable form))

namespace Token

theorem OfText.word {t : Tree} (h : OfText (.scalar t)) (letters bs : List UInt8) :
    (ofWord t letters bs).1.OfText := by
  rw [ofWord]
  split
  · exact h
  · exact .brokenScalar _ _

theorem ofText_ofNumeral (negative : Bool) (bs : List UInt8) :
    (ofNumeral negative bs).1.OfText := by
  rw [ofNumeral]
  split
  · split
    · next hn => exact .number hn
    · exact .unreadableScalar _
  · exact .brokenScalar _ _

theorem ofText_string (s : StringBody) : OfText (.string s.tree) := by
  rw [StringBody.tree]
  split
  · split
    · exact .string _
    · exact .unreadableString _
  · exact .brokenString _ _

theorem ofText_first (b : UInt8) (bs : List UInt8) : (first b bs).1.OfText := by
  unfold first
  split
  case h_1 => exact .arrayStart
  case h_2 => exact .arrayEnd
  case h_3 => exact .objectStart
  case h_4 => exact .objectEnd
  case h_5 => exact .comma
  case h_6 => exact .colon
  case h_7 => exact ofText_string _
  case h_8 => exact .word .null _ _
  case h_9 | h_10 => exact .word (.bool _) _ _
  case h_11 => exact ofText_ofNumeral _ _
  case h_12 =>
    split
    · exact ofText_ofNumeral _ _
    · exact .brokenScalar _ _

end Token

theorem ofText_of_mem_tokens {bs : List UInt8} {t : Token} (h : t ∈ tokens bs) : t.OfText := by
  fun_induction tokens bs with
  | case1 => cases h
  | case2 b bs hb ih => exact ih h
  | case3 b bs hb ih =>
    rcases List.mem_cons.mp h with rfl | h
    · exact Token.ofText_first b bs
    · exact ih h

end ParamSweep.Json
