import JsonnetTree.Diagnostic.Margin
import JsonnetTree.Diagnostic.Span
import JsonnetTree.Text.Quoted

/-!
# Source text in diagnostics

A diagnostic shows the lines of a source text that a location covers, with their numbers and
with marks below the text in question.
-/

namespace JsonnetTree

open Text

/-- A source text, cut at both ends of a span. -/
structure Excerpt where
  before : List Char
  covered : List Char
  after : List Char
  deriving DecidableEq, Inhabited, Repr

/-- A span that ends inside a character: the text from the first line of the span on, and the
end of the span in it. -/
structure SplitCharacter where
  text : List Char
  offset : Nat
  deriving DecidableEq, Inhabited, Repr

/-- How many bytes of the text a message about it shows. -/
def SplitCharacter.shownBytes : Nat := 256

/-- The message for a span that ends inside a character. -/
def SplitCharacter.message (s : SplitCharacter) : String :=
  let whole := takeBytes s.offset s.text
  let first := utf8Length whole
  let shown := takeBytes shownBytes s.text
  let inside := (s.text.drop whole.length).head?
  String.join ["byte index ", toString s.offset, " is not a char boundary; it is inside '",
    (inside.map showChar).getD "", "' (bytes ", toString first, "..",
    toString (first + (inside.map Char.utf8Size).getD 0), ") of `", String.ofList shown, "`",
    if shown.length < s.text.length then "[...]" else ""]

/-- The part of the last line of a text, if that has no line feed. -/
def lastLine (text : List Char) : List Char :=
  (text.reverse.takeWhile (· != '\n')).reverse

/-- Cuts a source text at both ends of a span. -/
def Span.excerpt (source : List Char) (span : Span) : Except SplitCharacter Excerpt :=
  let before := takeBytes span.start source
  match splitAtByte? (span.stop - span.start) (source.drop before.length) with
  | some (covered, after) => .ok ⟨before, covered, after⟩
  | none =>
    let lead := lastLine before
    .error ⟨lead ++ source.drop before.length, utf8Length lead + (span.stop - span.start)⟩

/-- How many columns a text takes. Control characters take none. -/
def columns (text : List Char) : Nat :=
  text.countP fun c => !(c.toNat < 0x20 || (0x7F ≤ c.toNat && c.toNat < 0xA0))

/-! ## Rows

The rows of a diagnostic have a gutter for line numbers, which is `width` columns wide. -/

/-- Writes a text over a row from a column on. -/
def overlay (row : List Char) (column : Nat) (text : List Char) : List Char :=
  row.take column ++ List.replicate (column - row.length) ' ' ++ text ++
    row.drop (column + text.length)

/-- A row without a number. -/
def plainRow (width : Nat) (text : List Char) : List Char :=
  List.replicate width ' ' ++ [' ', '|', ' '] ++ text

/-- A row with a line of the source text. -/
def sourceRow (width number : Nat) (text : List Char) : List Char :=
  let digits := Nat.toDigits 10 number
  List.replicate (width - digits.length) ' ' ++ digits ++ [' ', '|', ' '] ++ text

/-- A row in place of lines that are left out. -/
def gapRow (width : Nat) : List Char :=
  ['.', '.', '.'] ++ List.replicate width ' ' ++ ['|']

/-- The rows of lines between the first and the last line of a span. Of more than three, only
the outer two are shown. -/
def innerRows (width : Nat) (cut : Cut) (inner : List (List Char × Nat)) : List (List Char) :=
  let row := fun (line, number) => sourceRow width number (['|', ' '] ++ cut.apply line)
  if inner.length ≤ 3 then inner.map row
  else (inner.take 1).map row ++ [gapRow width] ++ (inner.drop (inner.length - 1)).map row

/-- The marks of one row: the columns of the source line from `first` on and before `last`. -/
structure Marks where
  first : Nat
  last : Nat
  deriving DecidableEq, Inhabited, Repr

/-- Marks the columns of a source line that starts at column `offset` of the row and lacks `cut`
columns. Where those are cut off, the marks stand as far left as they can, even in the gutter. -/
def Marks.draw (m : Marks) (offset cut : Nat) (row : List Char) : List Char :=
  let first := offset + m.first - cut
  let last := offset + m.last - 1 - cut
  overlay row first (List.replicate (last + 1 - first) '^')

/-- Writes the label of marks to their right, with a column between them. -/
def Marks.drawLabel (m : Marks) (offset cut : Nat) (label row : List Char) : List Char :=
  overlay row (offset + (m.last + 1 - cut)) label

/-- Draws a line from column `start` of the row to the marks. -/
def Marks.drawLine (m : Marks) (start offset cut : Nat) (row : List Char) : List Char :=
  overlay row start (List.replicate (offset + m.first - cut - start) '_')

namespace Excerpt

variable (x : Excerpt)

/-- What stands before the span on its first line. -/
def lead : List Char :=
  lastLine x.before

/-- The number of the first line. -/
def firstLine : Nat :=
  x.before.count '\n' + 1

/-- Whether the last character of the span is a line feed. -/
def endsLine : Bool :=
  x.covered.getLast? = some '\n'

/-- The lines that the span touches, with their numbers. If the span does not reach the end
of its last line, that line is shown with a carriage return at its end. -/
def numberedLines : List (List Char × Nat) :=
  let tail := if x.endsLine then [] else x.after.takeWhile (· != '\n')
  ((lines (x.lead ++ x.covered ++ tail)).map withoutLineEnd).zipIdx x.firstLine

/-- How wide the gutter is: the last line number fits in. -/
def gutter : Nat :=
  (Nat.toDigits 10 (x.firstLine + x.numberedLines.length - 1)).length

/-- The marks below a span on one line. At least one column is marked. -/
def marks (line : List Char) : Marks :=
  let first := columns x.lead
  let last := columns (line.take (x.lead.length + x.covered.length))
  ⟨first, max last (first + 1)⟩

/-- The mark at the start of a span over several lines. -/
def openingMark : Marks :=
  ⟨columns x.lead, columns x.lead + 1⟩

/-- The mark at the last column of a span over several lines; the line feed of a line is the
column after its text. -/
def closingMark : Marks :=
  let last := columns (withoutLineEnd ((lines x.covered).getLast?.getD [])) - 1
  if x.endsLine then ⟨last + 1, last + 2⟩ else ⟨last, last + 1⟩

/-- All marks of the span. -/
def allMarks : List Marks :=
  match x.numberedLines with
  | [(line, _)] => [x.marks line]
  | _ => [x.openingMark, x.closingMark]

/-- The extent of the excerpt with a label at the end of the span. All lines up to the end of the
one that the span stops in count, also one that it does not touch because it stops right before. -/
def extent (label : List Char) : Extent :=
  let text := x.lead ++ x.covered ++ x.after.takeWhile (· != '\n')
  let shown := (lines text).map withoutLineEnd
  let last := (x.allMarks.map (·.last)).foldr max 0
  { indent := commonIndent? shown
    first := (x.allMarks.map (·.first)).min?.getD 0
    last := last
    labelEnd := last + utf8Length label + 1
    longest := (shown.map utf8Length).foldr max 0 }

/-- The rows of a span on one line. -/
def singleRows (cut : Cut) (label line : List Char) (number : Nat) : List (List Char) :=
  let offset := x.gutter + 3
  let marks := x.marks line
  let row := marks.drawLabel offset (cut.width line) label (plainRow x.gutter [])
  [sourceRow x.gutter number (cut.apply line), marks.draw offset (cut.width line) row]

/-- The rows of the first line of a span over several lines. -/
def openingRows (cut : Cut) (line : List Char) (number : Nat) : List (List Char) :=
  if x.lead.all isBlank then [sourceRow x.gutter number (['/', ' '] ++ cut.apply line)]
  else
    let offset := x.gutter + 5
    let row := x.openingMark.drawLine (x.gutter + 4) offset (cut.width line) (plainRow x.gutter [])
    [sourceRow x.gutter number ([' ', ' '] ++ cut.apply line),
      x.openingMark.draw offset (cut.width line) row]

/-- The rows of the last line of a span over several lines. -/
def closingRows (cut : Cut) (label line : List Char) (number : Nat) : List (List Char) :=
  let offset := x.gutter + 5
  let row := x.closingMark.drawLine (x.gutter + 4) offset (cut.width line)
    (plainRow x.gutter ['|'])
  let row := x.closingMark.drawLabel offset (cut.width line) label row
  [sourceRow x.gutter number (['|', ' '] ++ cut.apply line),
    x.closingMark.draw offset (cut.width line) row]

/-- The rows that show the span, with a label at its end. -/
def rows (label : List Char) : List (List Char) :=
  let cut := (x.extent label).cut
  match x.numberedLines with
  | [] => []
  | [(line, number)] => x.singleRows cut label line number
  | (line, number) :: rest =>
    x.openingRows cut line number ++ innerRows x.gutter cut rest.dropLast ++
      rest.getLast?.toList.flatMap (fun (line, number) => x.closingRows cut label line number)

/-- The row that names the file and the place where the span starts. -/
def originRow (file : String) : List Char :=
  List.replicate x.gutter ' ' ++ ['-', '-', '>', ' '] ++ file.toList ++ [':'] ++
    Nat.toDigits 10 x.firstLine ++ [':'] ++ Nat.toDigits 10 (x.lead.length + 1)

end Excerpt

/-- The first row of a diagnostic. -/
def titleRow (message : String) : List Char :=
  (if message = "" then "error" else String.join ["error: ", message]).toList

/-- A message with the source text at a location, or the message alone if the location is
not in the text. -/
def diagnostic (source : String) (l : Location) (message : String) :
    Except SplitCharacter String := do
  let text := source.toList
  let rows ←
    match l.span? text with
    | none => pure [titleRow message]
    | some span => do
      let x ← span.excerpt text
      pure ([titleRow message] ++ (if l.file = "" then [] else [x.originRow l.file]) ++
        [plainRow x.gutter []] ++ x.rows l.render.toList ++ [plainRow x.gutter []])
  return String.ofList (trimLines (['\n'].intercalate rows))

end JsonnetTree
