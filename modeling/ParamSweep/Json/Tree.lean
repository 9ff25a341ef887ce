import ParamSweep.Json.Basic

/-! # What a reader finds

The reading of a text that need not be JSON. A tree follows the text up to the first
place where it stops being JSON and records there what is wrong, so that whoever walks a
tree in the order of the text meets the problems in the order of the text, whether they
are problems of the text or of what it says.
-/

namespace ParamSweep.Json

/-- Why a text is not JSON. -/
inductive Fault
  | malformed
  /-- The text ends where more is needed. -/
  | endOfText
  /-- The text ends within a word or a number. -/
  | endOfScalar
  /-- The text ends within a string. -/
  | endOfString
  deriving DecidableEq, Repr

/-- A value that is read from a text, as far as the text allows. -/
inductive Tree
  | null
  | bool (b : Bool)
  | number (n : Number)
  | string (s : String)
  /-- Items in order; then the array ends, or the text is cut by a fault. -/
  | array (items : List Tree) (cut : Option Fault)
  /-- Names with values, in order; then the object ends, or the text is cut by a fault. -/
  | object (members : List (Tree × Tree)) (cut : Option Fault)
  /-- The text goes no further: the fault met when the value is read, and the one met when
  it is skipped. -/
  | broken (read skip : Fault)
  /-- A value of correct form that cannot be read: a number out of range, a string with half
  a surrogate pair, a value nested too deeply. It can be skipped if what it stands for
  can. -/
  | unreadable (form : Tree)
  deriving Repr

namespace Tree

mutual

/-- The first fault met when the whole value is read. -/
def fault? : Tree → Option Fault
  | .array items cut => (itemsFault? items).or cut
  | .object members cut => (membersFault? members).or cut
  | .broken read _ => some read
  | .unreadable _ => some .malformed
  | _ => none

def itemsFault? : List Tree → Option Fault
  | [] => none
  | t :: ts => t.fault?.or (itemsFault? ts)

def membersFault? : List (Tree × Tree) → Option Fault
  | [] => none
  | (name, value) :: ms => name.fault?.or (value.fault?.or (membersFault? ms))

end

/-- The fault met when a name is skipped: it must be a string, readable or not. -/
def nameSkipFault? : Tree → Option Fault
  | .string _ => none
  | .unreadable (.string _) => none
  | .broken _ skip => some skip
  | _ => some .malformed

mutual

/-- The first fault met when the value is skipped. -/
def skipFault? : Tree → Option Fault
  | .array items cut => (itemsSkipFault? items).or cut
  | .object members cut => (membersSkipFault? members).or cut
  | .broken _ skip => some skip
  | .unreadable form => form.skipFault?
  | _ => none

def itemsSkipFault? : List Tree → Option Fault
  | [] => none
  | t :: ts => t.skipFault?.or (itemsSkipFault? ts)

def membersSkipFault? : List (Tree × Tree) → Option Fault
  | [] => none
  | (name, value) :: ms =>
    name.nameSkipFault?.or (value.skipFault?.or (membersSkipFault? ms))

end

mutual

/-- The reading of a value that is written in full. -/
def ofJson : Json → Tree
  | .null => .null
  | .bool b => .bool b
  | .number n => .number n
  | .string s => .string s
  | .array items => .array (ofItems items) none
  | .object members => .object (ofMembers members) none

def ofItems : List Json → List Tree
  | [] => []
  | j :: js => ofJson j :: ofItems js

def ofMembers : List (String × Json) → List (Tree × Tree)
  | [] => []
  | (name, value) :: ms => (.string name, ofJson value) :: ofMembers ms

end

end Tree

end ParamSweep.Json
