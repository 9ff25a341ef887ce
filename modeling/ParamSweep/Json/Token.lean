import ParamSweep.Json.Numeral
import ParamSweep.Json.StringBody

/-! # Tokens

A text is cut into punctuation, strings and other scalars. A scalar that is not written
in full, and a byte with which no token starts, end the tokens.
-/

namespace ParamSweep.Json

inductive Token
  | arrayStart
  | arrayEnd
  | objectStart
  | objectEnd
  | comma
  | colon
  | string (t : Tree)
  /-- A scalar that is not a string. -/
  | scalar (t : Tree)
  deriving Repr

namespace Token

def isBlank (b : UInt8) : Bool := b == 0x20 || b == 0x09 || b == 0x0a || b == 0x0d

/-- Reads the rest of a word. -/
def scanWord : List UInt8 → List UInt8 → Except Fault (List UInt8)
  | [], bs => .ok bs
  | _ :: _, [] => .error .endOfScalar
  | e :: es, b :: bs => if e = b then scanWord es bs else .error .malformed

/-- A scalar named by a word, of which the first letter is read. -/
def ofWord (t : Tree) (letters bs : List UInt8) : Token × List UInt8 :=
  match scanWord letters bs with
  | .ok bs => (.scalar t, bs)
  | .error f => (.scalar (.broken f f), [])

def ofNumeral (negative : Bool) (bs : List UInt8) : Token × List UInt8 :=
  match Numeral.scan negative bs with
  | .ok (n, bs) =>
    match n.number? with
    | some n => (.scalar (.number n), bs)
    | none => (.scalar (.unreadable (.number (.int 0))), bs)
  | .error (read, skip) => (.scalar (.broken read skip), [])

/-- The token that starts with a byte, and what follows it. -/
def first (b : UInt8) (bs : List UInt8) : Token × List UInt8 :=
  match b with
  | 0x5b => (.arrayStart, bs)
  | 0x5d => (.arrayEnd, bs)
  | 0x7b => (.objectStart, bs)
  | 0x7d => (.objectEnd, bs)
  | 0x2c => (.comma, bs)
  | 0x3a => (.colon, bs)
  | 0x22 => let s := StringBody.scan bs; (.string s.tree, s.after)
  | 0x6e => ofWord .null [0x75, 0x6c, 0x6c] bs
  | 0x74 => ofWord (.bool true) [0x72, 0x75, 0x65] bs
  | 0x66 => ofWord (.bool false) [0x61, 0x6c, 0x73, 0x65] bs
  | 0x2d => ofNumeral true bs
  | b =>
    if Numeral.isDigit b then ofNumeral false (b :: bs)
    else (.scalar (.broken .malformed .malformed), [])

theorem length_after_scan_le (bs : List UInt8) : (StringBody.scan bs).after.length ≤ bs.length := by
  fun_induction StringBody.scan bs <;>
    simp_all [StringBody.after, StringBody.stop, StringBody.cons] <;> omega

theorem length_scanWord_le {es bs r : List UInt8} (h : scanWord es bs = .ok r) :
    r.length ≤ bs.length := by
  fun_induction scanWord es bs <;> simp_all
  omega

theorem length_ofWord_le (t : Tree) (es bs : List UInt8) :
    (ofWord t es bs).2.length ≤ bs.length := by
  unfold ofWord
  split
  · exact length_scanWord_le ‹_›
  · simp

theorem length_ofNumeral_lt (negative : Bool) {bs : List UInt8} (h : bs ≠ []) :
    (ofNumeral negative bs).2.length < bs.length := by
  unfold ofNumeral
  split
  · have := Numeral.length_scan_lt ‹_›
    split <;> simpa using this
  · simpa using List.length_pos_iff.mpr h

/-- What follows a token is shorter than what starts with it. -/
theorem length_first_le (b : UInt8) (bs : List UInt8) : (first b bs).2.length ≤ bs.length := by
  unfold first
  split
  case h_11 =>
    by_cases h : bs = []
    · simp [h, ofNumeral, Numeral.scan, Numeral.scanWhole, Numeral.leadingDigits]
    · exact Nat.le_of_lt (length_ofNumeral_lt true h)
  case h_12 =>
    split
    · exact Nat.lt_succ_iff.mp (length_ofNumeral_lt false (List.cons_ne_nil b bs))
    · simp
  all_goals simp [length_ofWord_le, length_after_scan_le]

end Token

/-- The tokens of a text. -/
def tokens : List UInt8 → List Token
  | [] => []
  | b :: bs =>
    if Token.isBlank b then tokens bs
    else (Token.first b bs).1 :: tokens (Token.first b bs).2
termination_by bs => bs.length
decreasing_by
  · simp
  · exact Nat.lt_succ_of_le (Token.length_first_le b bs)

end ParamSweep.Json
