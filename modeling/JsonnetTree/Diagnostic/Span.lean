import JsonnetTree.Location
import JsonnetTree.Text.Lines
import JsonnetTree.Text.Utf8

/-!
# Spans of a source text

A location names a stretch of a source text by lines and columns. Its span gives the same
stretch by offsets in bytes.
-/

namespace JsonnetTree

open Text

/-- The offset of a position in a source text. A column after the end of a line counts as
that end. There is no offset if there is no such line. -/
def Position.offset? (source : List Char) (p : Position) : Option Nat :=
  match p.line.toNat with
  | 0 => none
  | line + 1 =>
    (lines source)[line]?.map fun text =>
      utf8Length ((lines source).take line).flatten +
        utf8Length ((lineContent text).take (p.column.toNat - 1))

/-- A stretch of a text: the bytes from `start` on, up to but not including `stop`. -/
structure Span where
  start : Nat
  stop : Nat
  deriving DecidableEq, Inhabited, Repr

/-- The span of a location. It ends with the source text if the location does so later, and
has one byte if the location would be empty. There is no span if the location is unset or
does not start in the text. -/
def Location.span? (source : List Char) (l : Location) : Option Span := do
  let length := utf8Length source
  let start ← l.start.offset? source
  let stop := (l.stop.offset? source).getD length
  let stop := if stop ≤ start then min (start + 1) length else stop
  if start < stop then some ⟨start, stop⟩ else none

end JsonnetTree
