import ParamSweep.Digest
import ParamSweep.Sweep.Basic

/-! # The shape of a sweep

The shape is everything but the rules, which are functions. It is identified by a
fingerprint.
-/

namespace ParamSweep

namespace Digest

def axis (axis : Axis) : List UInt8 := text axis.name ++ list value axis.values

def bundle (b : Bundle) : List UInt8 := list axis b.axes

end Digest

namespace Sweep

/-- The encoding of the shape. -/
def bytes (s : Sweep) : List UInt8 :=
  Digest.word s.defaultRepeats ++ Digest.list Digest.axis s.axes ++
    Digest.list Digest.bundle s.bundles

def fingerprint (s : Sweep) : String := Digest.ofBytes s.bytes

/-- Whether a value of the shape is not a number. -/
def hasNaN (s : Sweep) : Bool :=
  (s.axes ++ s.bundles.flatMap Bundle.axes).any fun axis => axis.values.any Value.isNaN

end Sweep

end ParamSweep
