import ParamSweep.Instant.Reader
import ParamSweep.Json.Decoder
import ParamSweep.Progress

/-! # Progress as JSON

Names that are not known are skipped, so that a later version may add some.
-/

namespace ParamSweep

open Json (Decoder)

namespace Instant

def toJson (i : Instant) : Json := .string i.text

def decoder : Decoder Instant
  | .string s =>
    match ofText s with
    | .ok i => .ok i
    | .error e => Decoder.fail (.badString e.message)
  | t => Decoder.wrongType "an RFC 3339 formatted date and time string" t

end Instant

namespace Progress

def toJson (p : Progress) : Json :=
  .object [("scan_fingerprint", .string p.fingerprint),
    ("created_at", p.createdAt.toJson),
    ("updated_at", p.updatedAt.toJson),
    ("completed", .object (p.completed.entries.map fun (key, n) => (key, .nat n.toNat)))]

def completedDecoder : Decoder (NameMap UInt64) := fun t => do
  return .ofList (← Decoder.pairs Decoder.count t)

def decoder : Decoder Progress :=
  Decoder.record "struct ScanState" .skipped
    (.cons "scan_fingerprint" Decoder.string none <|
      .cons "created_at" Instant.decoder none <|
      .cons "updated_at" Instant.decoder none <|
      .cons "completed" completedDecoder none .nil)
    fun (fingerprint, createdAt, updatedAt, completed, ()) =>
      { fingerprint, createdAt, updatedAt, completed }

/-- The text of a checkpoint, as bytes. -/
def fileBytes (p : Progress) : List UInt8 := Decoder.bytes p.toJson.pretty

end Progress

end ParamSweep
