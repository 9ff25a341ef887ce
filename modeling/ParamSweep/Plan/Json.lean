import ParamSweep.Plan.Basic
import ParamSweep.Value.Json

/-! # Plans as JSON

A list of values is an array, a generator an object with one member, and anything else a
scalar. Unknown names are refused everywhere, and whatever has a default may be left out.
-/

namespace ParamSweep

open Json (Decoder Fields)

namespace Comparison

def toJson (c : Comparison) : Json := .string c.symbol

def ofName (s : String) : Except Json.Error Comparison :=
  match ofSymbol? s with
  | some c => .ok c
  | none => Decoder.fail (.unknownVariant s (all.map symbol))

def decoder : Decoder Comparison :=
  Decoder.choice ofName fun s t => do
    let c ← ofName s
    Decoder.unit t
    return c

end Comparison

namespace Condition

def toJson (c : Condition) : Json :=
  .object [("param", .string c.parameter), ("op", c.comparison.toJson), ("value", c.value.toJson)]

def decoder : Decoder Condition :=
  Decoder.record "struct Condition" .refused
    (.cons "param" Decoder.string none <| .cons "op" Comparison.decoder none <|
      .cons "value" Value.decoder none .nil)
    fun (parameter, comparison, value, ()) => { parameter, comparison, value }

end Condition

namespace ConditionalCount

def toJson (r : ConditionalCount) : Json :=
  .object ((r.condition?.map fun c => ("when", c.toJson)).toList ++
    [("count", .nat r.count.toNat)])

def decoder : Decoder ConditionalCount :=
  Decoder.record "struct ConditionalRepeat" .refused
    (.cons "when" (Decoder.optional Condition.decoder) (some none) <|
      .cons "count" Decoder.count none .nil)
    fun (condition?, count, ()) => { condition?, count }

end ConditionalCount

namespace Generator

def toJson : Generator → Json
  | .linspace start stop num =>
    .object [("linspace", .object [("start", .double start), ("stop", .double stop),
      ("num", .nat num.toNat)])]
  | .logspace start stop num base =>
    .object [("logspace", .object [("start", .double start), ("stop", .double stop),
      ("num", .nat num.toNat), ("base", .double base)])]
  | .range start stop step =>
    .object [("range", .object [("start", .int start.toInt), ("stop", .int stop.toInt),
      ("step", .int step.toInt)])]

def names : List String := ["linspace", "logspace", "range"]

/-- The base of powers that is meant if none is given. -/
def defaultBase : Binary64 := .ofNat 10

/-- The contents of the generator with a name. -/
def contents? : String → Option (Decoder Generator)
  | "linspace" => some <|
    Decoder.record "struct variant Generator::Linspace" .refused
      (.cons "start" Decoder.double none <| .cons "stop" Decoder.double none <|
        .cons "num" Decoder.count none .nil)
      fun (start, stop, num, ()) => .linspace start stop num
  | "logspace" => some <|
    Decoder.record "struct variant Generator::Logspace" .refused
      (.cons "start" Decoder.double none <| .cons "stop" Decoder.double none <|
        .cons "num" Decoder.count none <| .cons "base" Decoder.double (some defaultBase) .nil)
      fun (start, stop, num, base, ()) => .logspace start stop num base
  | "range" => some <|
    Decoder.record "struct variant Generator::Range" .refused
      (.cons "start" Decoder.int64 none <| .cons "stop" Decoder.int64 none <|
        .cons "step" Decoder.int64 (some 1) .nil)
      fun (start, stop, step, ()) => .range start stop step
  | _ => none

def decoder : Decoder Generator :=
  Decoder.choice
    (fun s =>
      if s ∈ names then Decoder.fail (.wrongType .bareName "struct variant")
      else Decoder.fail (.unknownVariant s names))
    fun s t =>
      match contents? s with
      | some decode => decode t
      | none => Decoder.fail (.unknownVariant s names)

end Generator

namespace Source

def toJson : Source → Json
  | .list vs => .array (vs.map Value.toJson)
  | .generator g => g.toJson
  | .scalar v => v.toJson

/-- Reads anything in full before it is judged, and takes the first form that fits. -/
def decoder : Decoder Source := fun t => do
  Decoder.check t.fault?
  match Decoder.list Value.decoder t, Generator.decoder t, Value.decoder t with
  | .ok vs, _, _ => return .list vs
  | _, .ok g, _ => return .generator g
  | _, _, .ok v => return .scalar v
  | _, _, _ => Decoder.fail (.noAlternative "ValueSpec")

end Source

namespace Parameter

def toJson (p : Parameter) : Json :=
  .object [("name", .string p.name), ("values", p.source.toJson)]

def decoder : Decoder Parameter :=
  Decoder.record "struct ParamSpec" .refused
    (.cons "name" Decoder.string none <| .cons "values" Source.decoder none .nil)
    fun (name, source, ()) => { name, source }

end Parameter

namespace Plan

def toJson (p : Plan) : Json :=
  .object [("params", .array (p.parameters.map Parameter.toJson)),
    ("joint", .array (p.bundles.map fun names => .array (names.map .string))),
    ("default_repeats", .nat p.defaultRepeats.toNat),
    ("repeats", .array (p.counts.map ConditionalCount.toJson))]

def decoder : Decoder Plan :=
  Decoder.record "struct ScanSpec" .refused
    (.cons "params" (Decoder.list Parameter.decoder) none <|
      .cons "joint" (Decoder.list (Decoder.list Decoder.string)) (some []) <|
      .cons "default_repeats" Decoder.count (some 1) <|
      .cons "repeats" (Decoder.list ConditionalCount.decoder) (some []) .nil)
    fun (parameters, bundles, defaultRepeats, counts, ()) =>
      { parameters, bundles, defaultRepeats, counts }

end Plan

end ParamSweep
