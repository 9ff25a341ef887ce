import ParamSweep.Session
import ParamSweep.Value.Json

/-! # Runs and summaries as JSON -/

namespace ParamSweep

open Json (Decoder)

namespace Run

def toJson (r : Run) : Json :=
  .object [("combination", .nat r.combination), ("repeat", .nat r.repetition),
    ("repeats", .nat r.repeats), ("params", r.assignment.toJson)]

def decoder : Decoder Run :=
  Decoder.record "struct ScanPoint" .skipped
    (.cons "combination" Decoder.count none <| .cons "repeat" Decoder.count none <|
      .cons "repeats" Decoder.count none <| .cons "params" Assignment.decoder none .nil)
    fun (combination, repetition, repeats, assignment, ()) =>
      ⟨combination.toNat, repetition.toNat, repeats.toNat, assignment⟩

end Run

namespace Summary

def toJson (s : Summary) : Json :=
  .object [("executed", .nat s.executed), ("skipped", .nat s.skipped)]

def decoder : Decoder Summary :=
  Decoder.record "struct RunSummary" .skipped
    (.cons "executed" Decoder.count none <| .cons "skipped" Decoder.count none .nil)
    fun (executed, skipped, ()) => ⟨executed.toNat, skipped.toNat⟩

end Summary

end ParamSweep
