import ParamSweep.Json.Printer
import ParamSweep.Json.Tree
import ParamSweep.Text.Quoted

/-! # What a text fails to say

A text that is no JSON has a fault; one that is JSON but not of the wanted form has a
mismatch, which names what was found and what was expected.
-/

namespace ParamSweep.Json

/-- What was found in place of something else. -/
inductive Found
  | null
  | bool (b : Bool)
  | number (n : Number)
  | string (s : String)
  | array
  | object
  /-- The name of an alternative without its contents. -/
  | bareName
  deriving DecidableEq, Repr

inductive Mismatch
  | wrongType (found : Found) (expected : String)
  /-- A value of the right type that is out of range. -/
  | outOfRange (found : Found) (expected : String)
  | wrongLength (length : Nat) (expected : String)
  | missingField (name : String)
  | duplicateField (name : String)
  | unknownField (name : String) (known : List String)
  | unknownVariant (name : String) (known : List String)
  /-- None of the alternatives of a type fits. -/
  | noAlternative (type : String)
  /-- A string that does not have the wanted form; the reason is a sentence of its own. -/
  | badString (reason : String)
  deriving DecidableEq, Repr

inductive Error
  | fault (f : Fault)
  | mismatch (m : Mismatch)
  deriving DecidableEq, Repr

/-- A name between grave accents. -/
def ticked (s : String) : String := "`" ++ s ++ "`"

def Found.describe : Found → String
  | .null => "null"
  | .bool b => "boolean " ++ ticked (if b then "true" else "false")
  | .number (.int n) => "integer " ++ ticked (.ofList (printInt n))
  | .number (.double x) => "floating point " ++ ticked (.ofList (printDouble x))
  | .string s => "string " ++ Text.quoted s
  | .array => "sequence"
  | .object => "map"
  | .bareName => "unit variant"

/-- The names of which one is expected. -/
def oneOf : List String → String
  | [] => "there are no fields"
  | [a] => "expected " ++ ticked a
  | [a, b] => "expected " ++ ticked a ++ " or " ++ ticked b
  | names => "expected one of " ++ ", ".intercalate (names.map ticked)

def Mismatch.message : Mismatch → String
  | .wrongType found expected => "invalid type: " ++ found.describe ++ ", expected " ++ expected
  | .outOfRange found expected => "invalid value: " ++ found.describe ++ ", expected " ++ expected
  | .wrongLength n expected => "invalid length " ++ toString n ++ ", expected " ++ expected
  | .missingField name => "missing field " ++ ticked name
  | .duplicateField name => "duplicate field " ++ ticked name
  | .unknownField name known => "unknown field " ++ ticked name ++ ", " ++ oneOf known
  | .unknownVariant name known => "unknown variant " ++ ticked name ++ ", " ++ oneOf known
  | .noAlternative type => "data did not match any variant of untagged enum " ++ type
  | .badString reason => reason

def Fault.message : Fault → String
  | .malformed => "malformed text"
  | .endOfText => "unexpected end of text"
  | .endOfScalar => "unexpected end of value"
  | .endOfString => "unexpected end of string"

def Error.message : Error → String
  | .fault f => f.message
  | .mismatch m => m.message

end ParamSweep.Json
