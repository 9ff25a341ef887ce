import ParamSweep.Sha256
import ParamSweep.Value

/-! # Digests

Assignments and the shapes of sweeps are identified by the hash of their encodings. An
encoding is a sequence of bytes in which every part says how long it is: numbers take
eight bytes, the least significant one first, texts follow their length, lists follow
their size, and values follow a letter for their kind. The two zeros have one encoding.
-/

namespace ParamSweep

/-- The last `k` bytes of a number, the least significant one first. -/
def littleEndian (n : Nat) : Nat → List UInt8
  | 0 => []
  | k + 1 => .ofNat n :: littleEndian (n / 256) k

namespace Digest

def word (w : UInt64) : List UInt8 := littleEndian w.toNat 8

def size (n : Nat) : List UInt8 := word (.ofNat n)

def text (s : String) : List UInt8 := size s.utf8ByteSize ++ s.toUTF8.data.toList

/-- A list of things of one kind. -/
def list {α : Type} (encode : α → List UInt8) (as : List α) : List UInt8 :=
  size as.length ++ as.flatMap encode

/-- The double whose word stands for a number. -/
def canonical (x : Binary64) : Binary64 := if x.isZero then .zero false else x

def value : Value → List UInt8
  | .bool b => ['b'.toUInt8, if b then 1 else 0]
  | .int n => 'i'.toUInt8 :: word n.toUInt64
  | .float x => 'f'.toUInt8 :: word (canonical x).word
  | .string s => 's'.toUInt8 :: text s

/-- The text of the hash of an encoding. -/
def ofBytes (bs : List UInt8) : String :=
  .ofList ("sha256:".toList ++ Sha256.hexadecimal (Sha256.hash bs))

end Digest

namespace Assignment

/-- The encoding of an assignment. -/
def bytes (a : Assignment) : List UInt8 :=
  Digest.list (fun (name, v) => Digest.text name ++ Digest.value v) a.entries

/-- The key by which an assignment is known, whatever sweep it belongs to. -/
def key (a : Assignment) : String := Digest.ofBytes a.bytes

end Assignment

end ParamSweep
