import ParamSweep.Json.Tree

/-! # The body of a string

Between its quotes a string is a sequence of bytes and of UTF-16 units, the latter
written as escapes. Units outside the surrogates and pairs of surrogates are characters;
half a pair is none. The bytes have to be UTF-8.
-/

namespace ParamSweep.Json

inductive Piece
  | byte (b : UInt8)
  | unit (n : Nat)
  deriving DecidableEq, Repr

namespace Piece

def isHigh (n : Nat) : Bool := 0xd800 ≤ n && n < 0xdc00

def isLow (n : Nat) : Bool := 0xdc00 ≤ n && n < 0xe000

def encode (n : Nat) : List UInt8 := String.utf8EncodeChar (Char.ofNat n)

/-- The bytes that the pieces stand for; none if half a pair is among them. -/
def bytes? : List Piece → Option (List UInt8)
  | [] => some []
  | .byte b :: ps => (bytes? ps).map (b :: ·)
  | .unit n :: .unit m :: ps =>
    if isHigh n && isLow m then
      (bytes? ps).map (encode (0x10000 + (n - 0xd800) * 0x400 + (m - 0xdc00)) ++ ·)
    else if isHigh n || isLow n then none
    else (bytes? (.unit m :: ps)).map (encode n ++ ·)
  | .unit n :: ps =>
    if isHigh n || isLow n then none else (bytes? ps).map (encode n ++ ·)

/-- Whether half a pair is among the pieces that more pieces cannot complete. -/
def hasHalf : List Piece → Bool
  | [] => false
  | .byte _ :: ps => hasHalf ps
  | .unit n :: .unit m :: ps =>
    if isHigh n && isLow m then hasHalf ps
    else isHigh n || isLow n || hasHalf (.unit m :: ps)
  | [.unit n] => isLow n
  | .unit n :: ps => isHigh n || isLow n || hasHalf ps

end Piece

/-- A string read up to its closing quote, or as far as it goes. -/
structure StringBody where
  pieces : List Piece
  rest : Except Fault (List UInt8)

namespace StringBody

def cons (p : Piece) (s : StringBody) : StringBody := ⟨p :: s.pieces, s.rest⟩

def stop (f : Fault) : StringBody := ⟨[], .error f⟩

def hexValue? (b : UInt8) : Option Nat :=
  if 0x30 ≤ b && b ≤ 0x39 then some (b.toNat - 0x30)
  else if 0x41 ≤ b && b ≤ 0x46 then some (b.toNat - 0x41 + 10)
  else if 0x61 ≤ b && b ≤ 0x66 then some (b.toNat - 0x61 + 10)
  else none

def unit? (a b c d : UInt8) : Option Nat := do
  return (((← hexValue? a) * 16 + (← hexValue? b)) * 16 + (← hexValue? c)) * 16 + (← hexValue? d)

/-- The byte of an escape of one letter. -/
def unescape? : UInt8 → Option UInt8
  | 0x22 => some 0x22
  | 0x5c => some 0x5c
  | 0x2f => some 0x2f
  | 0x62 => some 0x08
  | 0x66 => some 0x0c
  | 0x6e => some 0x0a
  | 0x72 => some 0x0d
  | 0x74 => some 0x09
  | _ => none

/-- Reads on from within a string. -/
def scan : List UInt8 → StringBody
  | [] => stop .endOfString
  | 0x22 :: bs => ⟨[], .ok bs⟩
  | 0x5c :: 0x75 :: a :: b :: c :: d :: bs =>
    match unit? a b c d with
    | some n => (scan bs).cons (.unit n)
    | none => stop .malformed
  | 0x5c :: 0x75 :: _ => stop .endOfString
  | [0x5c] => stop .endOfString
  | 0x5c :: e :: bs =>
    match unescape? e with
    | some b => (scan bs).cons (.byte b)
    | none => stop .malformed
  | b :: bs => if b < 0x20 then stop .malformed else (scan bs).cons (.byte b)

/-- The text of the pieces, if they have one. -/
def text? (s : StringBody) : Option String := do
  String.fromUTF8? ⟨(← Piece.bytes? s.pieces).toArray⟩

/-- The reading of the string. -/
def tree (s : StringBody) : Tree :=
  match s.rest with
  | .ok _ =>
    match s.text? with
    | some text => .string text
    | none => .unreadable (.string "")
  | .error f => .broken (if Piece.hasHalf s.pieces then .malformed else f) f

/-- What follows the string; nothing is read after a fault. -/
def after (s : StringBody) : List UInt8 :=
  match s.rest with
  | .ok bs => bs
  | .error _ => []

end StringBody

end ParamSweep.Json
