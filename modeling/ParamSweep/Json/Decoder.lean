import ParamSweep.Json.Error
import ParamSweep.Json.Reader

/-! # Decoding JSON

A decoder walks a tree in the order of the text and stops at the first fault or mismatch
it meets. A record is described by the list of its fields, and may be written as an
object, in any order, or as an array of the fields in theirs; a field with a default may
be left out, in an array only after all others.
-/

namespace ParamSweep.Json

abbrev Decoder (α : Type) := Tree → Except Error α

namespace Decoder

def fail {α : Type} (m : Mismatch) : Except Error α := .error (.mismatch m)

/-- What a value of the wrong type is. -/
def found : Tree → Except Error Found
  | .null => .ok .null
  | .bool b => .ok (.bool b)
  | .number n => .ok (.number n)
  | .string s => .ok (.string s)
  | .array _ _ => .ok .array
  | .object _ _ => .ok .object
  | .broken f _ => .error (.fault f)
  | .unreadable _ => .error (.fault .malformed)

def wrongType {α : Type} (expected : String) (t : Tree) : Except Error α := do
  fail (.wrongType (← found t) expected)

/-- Fails with a fault if there is one. -/
def check : Option Fault → Except Error Unit
  | some f => .error (.fault f)
  | none => .ok ()

def string : Decoder String
  | .string s => .ok s
  | t => wrongType "a string" t

/-- A count of 64 bits. -/
def count : Decoder UInt64
  | .number (.int n) =>
    if 0 ≤ n ∧ n < UInt64.size then .ok (.ofNat n.toNat)
    else fail (.outOfRange (.number (.int n)) "usize")
  | t => wrongType "usize" t

def int64 : Decoder Int64
  | .number (.int n) =>
    if Int64.minValue.toInt ≤ n ∧ n ≤ Int64.maxValue.toInt then .ok (.ofInt n)
    else fail (.outOfRange (.number (.int n)) "i64")
  | t => wrongType "i64" t

/-- A double; an integer is rounded to one. -/
def double : Decoder Binary64
  | .number n => .ok n.toDouble
  | t => wrongType "f64" t

def unit : Decoder Unit
  | .null => .ok ()
  | t => wrongType "unit" t

/-- A value or null. -/
def optional {α : Type} (decode : Decoder α) : Decoder (Option α)
  | .null => .ok none
  | t => do return some (← decode t)

def items {α : Type} (decode : Decoder α) : List Tree → Except Error (List α)
  | [] => .ok []
  | t :: ts => do
    let a ← decode t
    return a :: (← items decode ts)

def list {α : Type} (decode : Decoder α) : Decoder (List α)
  | .array ts cut => do
    let as ← items decode ts
    check cut
    return as
  | t => wrongType "a sequence" t

/-- The name of a member. -/
def name : Decoder String
  | .string s => .ok s
  | .broken f _ => .error (.fault f)
  | _ => .error (.fault .malformed)

def members {α : Type} (decode : Decoder α) : List (Tree × Tree) → Except Error (List (String × α))
  | [] => .ok []
  | (k, t) :: ms => do
    let k ← name k
    let a ← decode t
    return (k, a) :: (← members decode ms)

/-- The members of an object in the order of the text. -/
def pairs {α : Type} (decode : Decoder α) : Decoder (List (String × α))
  | .object ms cut => do
    let as ← members decode ms
    check cut
    return as
  | t => wrongType "a map" t

end Decoder

/-- The fields of a record: names, decoders and defaults. -/
inductive Fields : List Type → Type 1
  | nil : Fields []
  | cons {α : Type} {ts : List Type} (name : String) (decode : Decoder α) (default : Option α)
      (fields : Fields ts) : Fields (α :: ts)

namespace Fields

/-- The values of the fields. -/
def Values : List Type → Type
  | [] => Unit
  | α :: ts => α × Values ts

/-- The values of the fields that have been met. -/
def Slots : List Type → Type
  | [] => Unit
  | α :: ts => Option α × Slots ts

def names {ts : List Type} : Fields ts → List String
  | .nil => []
  | .cons name _ _ fields => name :: fields.names

def empty : {ts : List Type} → Fields ts → Slots ts
  | [], .nil => ()
  | _ :: _, .cons _ _ _ fields => (none, fields.empty)

/-- Decodes a value into the slot of its name; none if no field has the name. -/
def put? : {ts : List Type} → Fields ts → String → Tree → Slots ts →
    Option (Except Error (Slots ts))
  | [], .nil, _, _, _ => none
  | _ :: _, .cons name decode _ fields, k, t, (slot, slots) =>
    if k = name then
      some <|
        if slot.isSome then Decoder.fail (.duplicateField name)
        else do return (some (← decode t), slots)
    else (fields.put? k t slots).map fun r => do return (slot, ← r)

/-- The values of an object whose members have all been met. -/
def complete : {ts : List Type} → Fields ts → Slots ts → Except Error (Values ts)
  | [], .nil, () => .ok ()
  | _ :: _, .cons name _ default fields, (slot, slots) => do
    match slot.or default with
    | some a => return (a, ← fields.complete slots)
    | none => Decoder.fail (.missingField name)

/-- Whether a name that no field has is an error, or its value is skipped. -/
inductive Unknown
  | refused
  | skipped

def ofMembers {ts : List Type} (fields : Fields ts) (unknown : Unknown) :
    List (Tree × Tree) → Slots ts → Except Error (Slots ts)
  | [], slots => .ok slots
  | (k, t) :: ms, slots => do
    let k ← Decoder.name k
    match fields.put? k t slots with
    | some slots => fields.ofMembers unknown ms (← slots)
    | none =>
      match unknown with
      | .refused => Decoder.fail (.unknownField k fields.names)
      | .skipped =>
        Decoder.check t.skipFault?
        fields.ofMembers unknown ms slots

/-- The values of an array, with the items behind the last field. -/
def ofItems (title : String) (total : Nat) (cut : Option Fault) :
    {ts : List Type} → Fields ts → List Tree → Except Error (Values ts × List Tree)
  | [], .nil, items => .ok ((), items)
  | _ :: _, .cons _ decode _ fields, t :: items => do
    let a ← decode t
    let (as, items) ← fields.ofItems title total cut items
    return ((a, as), items)
  | _ :: ts, .cons _ _ default fields, [] => do
    Decoder.check cut
    match default with
    | some a =>
      let (as, items) ← fields.ofItems title total cut []
      return ((a, as), items)
    | none =>
      Decoder.fail (.wrongLength (total - (ts.length + 1))
        (title ++ " with " ++ toString total ++ if total = 1 then " element" else " elements"))

end Fields

namespace Decoder

/-- A record with a title for messages. -/
def record {α : Type} {ts : List Type} (title : String) (unknown : Fields.Unknown)
    (fields : Fields ts) (make : Fields.Values ts → α) : Decoder α
  | .object ms cut => do
    let slots ← fields.ofMembers unknown ms fields.empty
    check cut
    return make (← fields.complete slots)
  | .array items cut => do
    let (values, rest) ← fields.ofItems title ts.length cut items
    unless rest.isEmpty do
      throw (.fault .malformed)
    check cut
    return make values
  | t => wrongType title t

/-- One of several alternatives: its bare name, or an object with its name and contents. -/
def choice {α : Type} (bare : String → Except Error α) (named : String → Decoder α) : Decoder α
  | .string s => bare s
  | .object [] cut => do
    check cut
    throw (.fault .malformed)
  | .object ((k, t) :: ms) cut => do
    let a ← named (← name k) t
    unless ms.isEmpty do
      throw (.fault .malformed)
    check cut
    return a
  | .broken .endOfText _ => .error (.fault .endOfText)
  | .broken .endOfString _ => .error (.fault .endOfString)
  | _ => .error (.fault .malformed)

/-- A whole text: the value and nothing else. -/
def decode {α : Type} (decoder : Decoder α) (bs : List UInt8) : Except Error α := do
  let (tree, excess) := read bs
  let a ← decoder tree
  check excess
  return a

/-- The bytes of a text. -/
def bytes (s : String) : List UInt8 := s.toUTF8.data.toList

def decodeString {α : Type} (decoder : Decoder α) (s : String) : Except Error α :=
  decoder.decode (bytes s)

end Decoder

end ParamSweep.Json
