import JsonnetTree.Text.Blank

/-!
# The left margin of a diagnostic

Source lines that are deeply indented are cut at the left, all by the same number of columns, so
that they stay near their numbers. A line that is too long for the window is cut so that the marked
columns can be seen.
-/

namespace JsonnetTree

open Text

/-- How many blanks a line starts with. -/
def indent (line : List Char) : Nat :=
  (line.takeWhile isBlank).length

/-- The least indentation of the lines that have any text. -/
def commonIndent? (lines : List (List Char)) : Option Nat :=
  ((lines.filter fun line => !line.all isBlank).map indent).min?

/-- What is cut off at the left of every line. -/
inductive Cut where
  | columns (count : Nat)
  /-- The whole line, where no line has any text. -/
  | whole
  deriving DecidableEq, Inhabited, Repr

namespace Cut

/-- How many columns a cut takes from a line. -/
def width (cut : Cut) (line : List Char) : Nat :=
  match cut with
  | .columns count => min count line.length
  | .whole => line.length

/-- Whether anything is cut off. -/
def isProper : Cut → Bool
  | .columns count => 0 < count
  | .whole => true

/-- What is shown of a line. Three dots take the place of the first columns after a cut. -/
def apply (cut : Cut) (line : List Char) : List Char :=
  let rest := line.drop (cut.width line)
  if cut.isProper then ['.', '.', '.'] ++ rest.drop 3 else rest

end Cut

/-- What the margin of a diagnostic depends on: the indentation of its lines, the columns from
`first` on and before `last`, which are marked, the column before which the label ends, and the
length of the longest line. -/
structure Extent where
  indent : Option Nat
  first : Nat
  last : Nat
  labelEnd : Nat
  longest : Nat
  deriving DecidableEq, Inhabited, Repr

namespace Extent

/-- The columns that are kept free around what must be seen. -/
def slack : Nat := 6

/-- An indentation that is left as it is. -/
def plainIndent : Nat := 20

/-- The indentation that is left, apart from the slack, of one that is cut. -/
def keptIndent : Nat := 16

/-- How many columns the window has. -/
def window : Nat := 140

/-- The cut for lines that are indented by `indent`, apart from the slack, and do not fit into the
window. The label is kept in the window if it can be, and otherwise the marked columns. -/
def cutToFit (x : Extent) (indent : Nat) : Nat :=
  let first := x.first - slack
  let last := x.last + slack
  let labelEnd := x.labelEnd + slack
  if labelEnd - indent ≤ window then indent
  else if labelEnd - first ≤ window then first - (window - (labelEnd - first)) / 2
  else if last - first ≤ window then first - (window - (last - first)) / 5 * 2
  else first

/-- The cut for a diagnostic. -/
def cut (x : Extent) : Cut :=
  match x.indent with
  | none => .whole
  | some indent =>
    let indent := indent - slack
    let count := if plainIndent < indent then indent - keptIndent else 0
    .columns (if x.longest - count ≤ window then count else x.cutToFit indent)

end Extent

end JsonnetTree
