import ParamSweep.Instant
import ParamSweep.Text.Blank

/-! # Reading instants

Dates and times of RFC 3339 with any offset from universal time, in a relaxed form:
blanks may stand before a number, a hyphen, a colon and the offset, the date may be
divided from the time by a blank, and a year with a sign may have any number of digits.
-/

namespace ParamSweep.Instant

/-- Why a text is no instant. -/
inductive ReadError
  | tooShort
  | invalid
  | outOfRange
  | tooLong
  /-- The universal time lies beyond the calendar. -/
  | impossible
  deriving DecidableEq, Repr

def ReadError.message : ReadError → String
  | .tooShort => "premature end of input"
  | .invalid => "input contains invalid characters"
  | .outOfRange => "input is out of range"
  | .tooLong => "trailing input"
  | .impossible => "no possible date and time matching input"

namespace Reader

def digitValue (c : Char) : Nat := c.toNat - '0'.toNat

def ofDigits (cs : List Char) : Nat := cs.foldl (fun n c => 10 * n + digitValue c) 0

/-- One to `width` digits. -/
def number (width : Nat) (cs : List Char) : Except ReadError (Nat × List Char) :=
  match cs with
  | [] => .error .tooShort
  | c :: _ =>
    if c.isDigit then
      let ds := (cs.take width).takeWhile Char.isDigit
      let n := ofDigits ds
      if n < 0x8000000000000000 then .ok (n, cs.drop ds.length) else .error .outOfRange
    else .error .invalid

/-- A number of two digits within bounds, after blanks. -/
def field (low high : Nat) (cs : List Char) : Except ReadError (Nat × List Char) := do
  let (n, cs) ← number 2 (Text.trimStart cs)
  if low ≤ n ∧ n ≤ high then return (n, cs) else throw .outOfRange

/-- A year of up to four digits, or one with a sign. -/
def year (cs : List Char) : Except ReadError (Int × List Char) := do
  let (y, cs) ← match Text.trimStart cs with
    | '-' :: cs => do
      let (n, r) ← number cs.length cs
      pure (-(n : Int), r)
    | '+' :: cs => do
      let (n, r) ← number cs.length cs
      pure ((n : Int), r)
    | cs => do
      let (n, r) ← number 4 cs
      pure ((n : Int), r)
  if -0x80000000 ≤ y ∧ y < 0x80000000 then return (y, cs) else throw .outOfRange

/-- A mark, after blanks. -/
def mark (c : Char) (cs : List Char) : Except ReadError (List Char) :=
  match Text.trimStart cs with
  | [] => .error .tooShort
  | d :: cs => if d = c then .ok cs else .error .invalid

/-- The mark between date and time. -/
def divider : List Char → Except ReadError (List Char)
  | [] => .error .tooShort
  | c :: cs => if c = 't' ∨ c = 'T' ∨ c = ' ' then .ok cs else .error .invalid

/-- A fraction of a second in nanoseconds; from the tenth digit on it is ignored. -/
def fraction (cs : List Char) : Except ReadError (Nat × List Char) :=
  match cs with
  | '.' :: cs => do
    let (n, r) ← number 9 cs
    let digits := cs.length - r.length
    return (n * Nat.pow 10 (9 - digits), r.dropWhile Char.isDigit)
  | cs => .ok (0, cs)

def utf8Size (cs : List Char) : Nat := (String.ofList cs).utf8ByteSize

/-- Minutes of an offset. -/
def offsetMinutes (cs : List Char) : Except ReadError (Nat × List Char) :=
  if utf8Size cs < 2 then .error .tooShort
  else
    match cs with
    | a :: b :: r =>
      if a.isDigit ∧ b.isDigit then
        if a ≤ '5' then .ok (ofDigits [a, b], r) else .error .outOfRange
      else .error .invalid
    | _ => .error .invalid

/-- Hours and minutes of an offset, in seconds. -/
def offsetSize (cs : List Char) : Except ReadError (Nat × List Char) :=
  if utf8Size cs < 2 then .error .tooShort
  else
    match cs with
    | a :: b :: cs =>
      if a.isDigit ∧ b.isDigit then do
        let (minutes, r) ← offsetMinutes (cs.dropWhile fun c => c == ':' || Text.isBlank c)
        return (ofDigits [a, b] * 3600 + minutes * 60, r)
      else .error .invalid
    | _ => .error .invalid

/-- The offset of the local time, in seconds: a letter for none, or a sign and its size. -/
def offset (cs : List Char) : Except ReadError (Int × List Char) :=
  match cs with
  | [] => .error .tooShort
  | c :: r =>
    if (cs.take 3).map Char.toLower = ['u', 't', 'c'] then .ok (0, cs.drop 3)
    else if c = 'z' ∨ c = 'Z' then .ok (0, r)
    else if c = '+' then do
      let (n, r) ← offsetSize r
      return ((n : Int), r)
    else if c = '-' ∨ c = '\u2212' then do
      let (n, r) ← offsetSize r
      return (-(n : Int), r)
    else .error .invalid

/-- The universal time of a local time. -/
def toUniversal (date : Date) (second nanos : Nat) (offset : Int) : Except ReadError Instant :=
  if offset.natAbs < secondsPerDay then
    let total := (second : Int) - offset
    let i : Instant :=
      if total < 0 then ⟨date.previous, (total + secondsPerDay).toNat, nanos⟩
      else if secondsPerDay ≤ total then ⟨date.next, (total - secondsPerDay).toNat, nanos⟩
      else ⟨date, total.toNat, nanos⟩
    if i.date.isValid then .ok i else .error .impossible
  else .error .outOfRange

/-- A date. -/
def date (cs : List Char) : Except ReadError (Date × List Char) := do
  let (y, cs) ← year cs
  let (m, cs) ← field 1 12 (← mark '-' cs)
  let (d, cs) ← field 1 31 (← mark '-' cs)
  return (⟨y, m, d⟩, cs)

/-- A time of the day in seconds and nanoseconds. -/
def time (cs : List Char) : Except ReadError ((Nat × Nat) × List Char) := do
  let (h, cs) ← field 0 23 cs
  let (m, cs) ← field 0 59 (← mark ':' cs)
  let (s, cs) ← field 0 60 (← mark ':' cs)
  let (n, cs) ← fraction cs
  let leap := if s = 60 then 1 else 0
  return ((h * 3600 + m * 60 + (s - leap), n + leap * nanosPerSecond), cs)

def read (cs : List Char) : Except ReadError Instant := do
  let (date, cs) ← date cs
  let ((second, nanos), cs) ← time (← divider cs)
  let (offset, cs) ← offset (Text.trimStart cs)
  unless (Text.trimStart cs).isEmpty do
    throw .tooLong
  unless date.isValid do
    throw .outOfRange
  toUniversal date second nanos offset

end Reader

/-- The instant of a text. -/
def ofText (s : String) : Except ReadError Instant := Reader.read s.toList

end ParamSweep.Instant
