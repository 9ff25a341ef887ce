import ParamSweep.Session.Json
import ParamSweep.Proofs.NameMap
import ParamSweep.Proofs.Sweep.Walk
import ParamSweep.Proofs.Sweep.Loops
import ParamSweep.Proofs.Sweep.Edits
import ParamSweep.Proofs.Sweep.Rearranged
import ParamSweep.Proofs.Binary64
import ParamSweep.Proofs.Digest.Separation
import ParamSweep.Proofs.Digest.Key
import ParamSweep.Proofs.Digest.Shape
import ParamSweep.Proofs.Json.Numerals
import ParamSweep.Proofs.Json.Printed
import ParamSweep.Proofs.Json.Doubles
import ParamSweep.Proofs.Json.Tokens
import ParamSweep.Proofs.Json.Finite
import ParamSweep.Proofs.Json.Restores
import ParamSweep.Proofs.Json.Spelling
import ParamSweep.Proofs.Json.Whole
import ParamSweep.Proofs.Json.Fields
import ParamSweep.Proofs.Json.Forms
import ParamSweep.Proofs.Plan.RoundTrip
import ParamSweep.Proofs.Plan.Build
import ParamSweep.Proofs.Plan.Keys
import ParamSweep.Proofs.Instant
import ParamSweep.Proofs.Progress
import ParamSweep.Proofs.Files
import ParamSweep.Proofs.Store
import ParamSweep.Proofs.Store.Register
import ParamSweep.Proofs.Session.Due
import ParamSweep.Proofs.Session.Report
import ParamSweep.Proofs.Session.Invariant
import ParamSweep.Proofs.Session.Ends
import ParamSweep.Proofs.Session.Resume
import ParamSweep.Proofs.Session.History
import ParamSweep.Proofs.Session.Interrupted
import ParamSweep.Proofs.Session.Rearranged
import ParamSweep.Proofs.Sweep.Faults
import ParamSweep.Proofs.Sweep.Stepwise
import ParamSweep.Proofs.Sweep.SetAxes
import ParamSweep.Proofs.Json.Scalars
import ParamSweep.Proofs.Rereading
import ParamSweep.Proofs.Json.Layout
import ParamSweep.Proofs.Json.Range
import ParamSweep.Proofs.Generator
import ParamSweep.Proofs.Text.Order
import ParamSweep.Proofs.Assignment
import ParamSweep.Proofs.Condition
import ParamSweep.Proofs.Binary64.Nearest
import ParamSweep.Proofs.Binary64.Exact
import ParamSweep.Proofs.Condition.Rounded
import ParamSweep.Proofs.Sweep.AddBundle
import ParamSweep.Proofs.Sweep.Distinct
import ParamSweep.Proofs.Sweep.InRange
import ParamSweep.Proofs.Sweep.Overridden
import ParamSweep.Proofs.Binary64.Arithmetic
import ParamSweep.Proofs.Generator.Spaced
import ParamSweep.Proofs.Session.Counters
import ParamSweep.Proofs.Progress.Total
import ParamSweep.Proofs.Store.Neighbours
import ParamSweep.Proofs.Sweep.RowMajor
