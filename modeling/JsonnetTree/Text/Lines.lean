/-!
# Lines of a text

A line ends with a line feed, which belongs to it. A carriage return before the line feed
belongs to the end of the line too.
-/

namespace JsonnetTree.Text

/-- The lines of a text, each with its end. Only the last line may have no line feed. -/
def lines : List Char → List (List Char)
  | [] => []
  | c :: rest =>
    if c = '\n' then [c] :: lines rest
    else
      match lines rest with
      | [] => [[c]]
      | line :: more => (c :: line) :: more

/-- Nothing of a text is lost in its lines. -/
@[simp] theorem flatten_lines (text : List Char) : (lines text).flatten = text := by
  induction text with
  | nil => rfl
  | cons c text ih =>
    by_cases h : c = '\n'
    · simp [lines, h, ih]
    · cases hl : lines text with
      | nil => simp_all [lines]
      | cons line more => simp_all [lines]

/-- A line up to the line feeds and carriage returns at its end. -/
def lineContent (line : List Char) : List Char :=
  (line.reverse.dropWhile fun c => c = '\n' || c = '\r').reverse

/-- A line without the line feed at its end, and without a carriage return before that. -/
def withoutLineEnd (line : List Char) : List Char :=
  match line.reverse with
  | '\n' :: '\r' :: rest => rest.reverse
  | '\n' :: rest => rest.reverse
  | _ => line

/-- A text without the spaces at the ends of its lines. -/
def trimLines (text : List Char) : List Char :=
  text.foldr (fun c rest =>
    if c = ' ' && (rest.isEmpty || rest.head? = some '\n') then rest else c :: rest) []

end JsonnetTree.Text
