import ParamSweep.Instant
import ParamSweep.NameMap

/-! # Progress

What is known of the work done so far: how many runs of each assignment have finished, by
the keys of the assignments. It is not tied to the sweep that did the work, of which it
keeps the fingerprint only.
-/

namespace ParamSweep

/-- Why there is no count. -/
inductive CountError
  /-- It would take more than 64 bits. -/
  | overflow
  deriving DecidableEq, Repr

def CountError.message : CountError → String
  | .overflow => "attempt to add with overflow"

/-- The sum of two counts, if 64 bits are enough for it. -/
def addCounts (m n : UInt64) : Except CountError UInt64 :=
  if m.toNat + n.toNat < UInt64.size then .ok (m + n) else .error .overflow

structure Progress where
  /-- The sweep that was last at work. -/
  fingerprint : String
  createdAt : Instant
  updatedAt : Instant
  completed : NameMap UInt64
  deriving DecidableEq

namespace Progress

/-- No progress yet. -/
def new (fingerprint : String) (now : Instant) : Progress := ⟨fingerprint, now, now, .empty⟩

/-- How many runs with a key have finished. -/
def count (p : Progress) (key : String) : UInt64 := (p.completed.get? key).getD 0

/-- Notes that a run with a key has finished. -/
def record (p : Progress) (key : String) (now : Instant) : Except CountError Progress := do
  let n ← addCounts (p.count key) 1
  return { p with completed := p.completed.insert key n, updatedAt := now }

/-- How many runs have finished. -/
def total (p : Progress) : Except CountError UInt64 := p.completed.values.foldlM addCounts 0

end Progress

end ParamSweep
