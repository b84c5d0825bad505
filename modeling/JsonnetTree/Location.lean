/-!
# Locations in source text

A location is a file name with a first and a last position. Lines and columns
count from one; line zero stands for "no position", so a location whose first
position has line zero is *unset*.
-/

namespace JsonnetTree

/-- A place in a text, as line and column. -/
structure Position where
  line : UInt32
  column : UInt32
  deriving DecidableEq, Inhabited, Repr

/-- The position that stands for no place at all. -/
def Position.origin : Position := ⟨0, 0⟩

/-- The text `line:column`. -/
def Position.render (p : Position) : String :=
  toString p.line.toNat ++ ":" ++ toString p.column.toNat

/-- Positions are ordered by line, then by column. -/
def Position.compare (p q : Position) : Ordering :=
  (Ord.compare p.line.toNat q.line.toNat).then (Ord.compare p.column.toNat q.column.toNat)

/-- A stretch of source text. `stop` is the position just after its last character. -/
structure Location where
  file : String
  start : Position
  stop : Position
  deriving DecidableEq, Repr

/-- The location of what no source text was read for. -/
def Location.unset : Location := ⟨"", .origin, .origin⟩

instance : Inhabited Location := ⟨.unset⟩

/-- Whether the location points at real text. -/
def Location.isSet (l : Location) : Bool :=
  l.start.line != 0

/-- This location if it is set, and that of its owner otherwise. -/
def Location.orOwner (l owner : Location) : Location :=
  if l.isSet then l else owner

/-- The location if it is set. -/
def Location.known? (l : Location) : Option Location :=
  if l.isSet then some l else none

/-- The text of a location: its file name alone when it is unset, and otherwise the
shortest of a point, a range of columns, and a range of lines, after the file name
if there is one. -/
def Location.render (l : Location) : String :=
  if l.isSet then
    let file := if l.file = "" then "" else l.file ++ ":"
    if l.start.line = l.stop.line then
      if l.start.column = l.stop.column then file ++ l.start.render
      else file ++ l.start.render ++ "-" ++ toString l.stop.column.toNat
    else file ++ "(" ++ l.start.render ++ ")-(" ++ l.stop.render ++ ")"
  else l.file

end JsonnetTree
