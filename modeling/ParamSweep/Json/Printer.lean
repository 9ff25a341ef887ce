import ParamSweep.Json.Basic
import ParamSweep.Decimal.Layout

/-! # Writing JSON

One printer for both styles: a value is written with or without line breaks and
indentation, and nothing else differs. Doubles always have a fraction or an exponent.
-/

namespace ParamSweep.Json

inductive Style
  | compact
  | pretty
  deriving DecidableEq, Repr

/-- The layout of doubles. -/
def layout : Layout where
  lowest := -5
  highest := 15
  plus := ['+']
  tie := .toEven

/-- A character between quotes. Only what must be escaped is. -/
def escaped (c : Char) : List Char :=
  match c with
  | '"' => ['\\', '"']
  | '\\' => ['\\', '\\']
  | '\x08' => ['\\', 'b']
  | '\x0c' => ['\\', 'f']
  | '\n' => ['\\', 'n']
  | '\r' => ['\\', 'r']
  | '\t' => ['\\', 't']
  | c =>
    if c.toNat < 0x20 then
      ['\\', 'u', '0', '0', Nat.digitChar (c.toNat / 16), Nat.digitChar (c.toNat % 16)]
    else [c]

def printString (s : String) : List Char := '"' :: (s.toList.flatMap escaped ++ ['"'])

def printInt (n : Int) : List Char :=
  (if n < 0 then ['-'] else []) ++ Decimal.digits n.natAbs

def printDouble (x : Binary64) : List Char := layout.finite x

def Number.print : Number → List Char
  | .int n => printInt n
  | .double x => printDouble x

/-- A new line at the given depth. -/
def Style.newline (depth : Nat) : Style → List Char
  | .compact => []
  | .pretty => '\n' :: List.replicate (2 * depth) ' '

def Style.colon : Style → List Char
  | .compact => [':']
  | .pretty => [':', ' ']

mutual

def printAt (style : Style) (depth : Nat) : Json → List Char
  | .null => ['n', 'u', 'l', 'l']
  | .bool true => ['t', 'r', 'u', 'e']
  | .bool false => ['f', 'a', 'l', 's', 'e']
  | .number n => n.print
  | .string s => printString s
  | .array [] => ['[', ']']
  | .array (item :: items) =>
    '[' :: (style.newline (depth + 1) ++ printAt style (depth + 1) item ++
      printItems style (depth + 1) items ++ style.newline depth ++ [']'])
  | .object [] => ['\x7b', '\x7d']
  | .object ((name, value) :: members) =>
    '\x7b' :: (style.newline (depth + 1) ++ printString name ++ style.colon ++
      printAt style (depth + 1) value ++ printMembers style (depth + 1) members ++
      style.newline depth ++ ['\x7d'])

/-- The items after the first. -/
def printItems (style : Style) (depth : Nat) : List Json → List Char
  | [] => []
  | item :: items =>
    ',' :: (style.newline depth ++ printAt style depth item ++ printItems style depth items)

/-- The members after the first. -/
def printMembers (style : Style) (depth : Nat) : List (String × Json) → List Char
  | [] => []
  | (name, value) :: members =>
    ',' :: (style.newline depth ++ printString name ++ style.colon ++
      printAt style depth value ++ printMembers style depth members)

end

def print (style : Style) (j : Json) : String := .ofList (printAt style 0 j)

/-- The text without blanks. -/
def compact (j : Json) : String := j.print .compact

/-- The text with a line per item and two blanks per depth. -/
def pretty (j : Json) : String := j.print .pretty

end ParamSweep.Json
