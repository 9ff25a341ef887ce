import ParamSweep.Json.Token

/-! # Reading JSON

The tokens of a text drive a machine that keeps the containers that are still open,
innermost first. At most 127 containers may be open; a deeper one has a form but cannot
be read. At the first token that does not fit, and at an early end of the tokens, the
open containers are closed around what is there.
-/

namespace ParamSweep.Json

/-- An open container with what has been read of it, latest first. -/
inductive Frame
  | array (items : List Tree)
  /-- An object that waits for the value of a name. -/
  | object (members : List (Tree × Tree)) (name : Tree)

namespace Frame

/-- The container with one more value. -/
def add (value : Tree) : Frame → Tree
  | .array items => .array (value :: items).reverse none
  | .object members name => .object ((name, value) :: members).reverse none

/-- The container with one more value, cut by a fault after it. -/
def addAndCut (value : Tree) (f : Fault) : Frame → Tree
  | .array items => .array (value :: items).reverse (some f)
  | .object members name => .object ((name, value) :: members).reverse (some f)

end Frame

/-- How many containers may be open at once. -/
def depthLimit : Nat := 127

/-- Whether one more container may be open. No more frames are looked at than the limit. -/
def hasRoom (outer : List Frame) : Bool := (outer.drop (depthLimit - 1)).isEmpty

/-- A container that was opened in others. -/
def nested (outer : List Frame) (container : Tree) : Tree :=
  if hasRoom outer then container else .unreadable container

/-- Closes all open containers around a value. -/
def closeAll (value : Tree) : List Frame → Tree
  | [] => value
  | frame :: outer => closeAll (nested outer (frame.add value)) outer

/-- What the reader waits for. -/
inductive Waiting
  | forValue (open_ : List Frame)
  /-- The first item of an array, or its end. -/
  | forItem (outer : List Frame)
  /-- A name, or the end of an object of which nothing has been read. -/
  | forName (outer : List Frame) (members : List (Tree × Tree))
  | forColon (outer : List Frame) (members : List (Tree × Tree)) (name : Tree)
  /-- A comma or an end, after a value; the end of the text if nothing is open. -/
  | forMore (open_ : List Frame) (value : Tree)
  /-- Nothing: the value is done. With a fault if the text goes on after it. -/
  | forNothing (value : Tree) (excess : Option Fault)

/-- The value at the place where a token does not fit. -/
def misfit : Tree := .broken .malformed .malformed

/-- The value that the text is too short for. -/
def unfinished : Tree := .broken .endOfText .endOfText

namespace Waiting

def stop (value : Tree) (open_ : List Frame) : Waiting := .forNothing (closeAll value open_) none

/-- A token where a value may start. -/
def startValue (open_ : List Frame) : Token → Waiting
  | .string t | .scalar t => .forMore open_ t
  | .arrayStart => .forItem open_
  | .objectStart => .forName open_ []
  | _ => stop misfit open_

/-- A token after a value in a container. -/
def afterValue (frame : Frame) (outer : List Frame) (value : Tree) (t : Token) : Waiting :=
  match frame, t with
  | .array items, .comma => .forValue (.array (value :: items) :: outer)
  | .object members name, .comma => .forName outer ((name, value) :: members)
  | .array _, .arrayEnd | .object _ _, .objectEnd => .forMore outer (nested outer (frame.add value))
  | _, _ => stop (nested outer (frame.addAndCut value .malformed)) outer

def step (w : Waiting) (t : Token) : Waiting :=
  match w, t with
  | .forValue open_, t => startValue open_ t
  | .forItem outer, .arrayEnd => .forMore outer (nested outer (.array [] none))
  | .forItem outer, t => startValue (.array [] :: outer) t
  | .forName outer members, .string name => .forColon outer members name
  | .forName outer [], .objectEnd => .forMore outer (nested outer (.object [] none))
  | .forName outer members, _ => stop misfit (.object members misfit :: outer)
  | .forColon outer members name, .colon => .forValue (.object members name :: outer)
  | .forColon outer members name, _ => stop misfit (.object members name :: outer)
  | .forMore (frame :: outer) value, t => afterValue frame outer value t
  | .forMore [] value, _ => .forNothing value (some .malformed)
  | .forNothing value excess, _ => .forNothing value excess

/-- The text ends. -/
def finish : Waiting → Tree × Option Fault
  | .forValue open_ => (closeAll unfinished open_, none)
  | .forItem outer => (closeAll (nested outer (.array [] (some .endOfText))) outer, none)
  | .forName outer [] => (closeAll (nested outer (.object [] (some .endOfText))) outer, none)
  | .forName outer members => (closeAll misfit (.object members unfinished :: outer), none)
  | .forColon outer members name => (closeAll unfinished (.object members name :: outer), none)
  | .forMore (frame :: outer) value =>
    (closeAll (nested outer (frame.addAndCut value .endOfText)) outer, none)
  | .forMore [] value => (value, none)
  | .forNothing value excess => (value, excess)

end Waiting

/-- The value of a text, and the fault met behind it. -/
def read (bs : List UInt8) : Tree × Option Fault :=
  ((tokens bs).foldl Waiting.step (.forValue [])).finish

end ParamSweep.Json
