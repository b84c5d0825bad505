import JsonnetTree.Fodder
import JsonnetTree.Layout.Piece

/-!
# Printing fodder

Text is *crowded* when the last token would run into whatever comes next. Fodder that ends a
line leaves it uncrowded; a comment inside a line is set off by a space when it is crowded,
and leaves it crowded. A line end breaks the line once more than it leaves blank lines. This
sum is one of machine words: after the largest number comes zero.
-/

namespace JsonnetTree

/-- The comment lines of a paragraph. Lines after the first are indented as the line on which
the paragraph starts, unless they are empty. -/
def commentLines (indent : Nat) : (first : Bool) → List String → List Piece
  | _, [] => []
  | first, line :: rest =>
    (if first || line.isEmpty then [] else [.spaces indent]) ++
      .comment line :: .newlines 1 :: commentLines indent false rest

/-- The comment of an element that shows only its first line. -/
def firstComment (element : FodderElement) : List Piece :=
  (element.comment.head?.map Piece.comment).toList

/-- Prints fodder. `lastIndent` is the indentation of the current line, and `separate` asks
for a space at the end if the text is crowded there. -/
def fillFrom (lastIndent : Nat) (crowded separate : Bool) : Fodder → List Piece
  | [] => if separate && crowded then [.spaces 1] else []
  | element :: rest =>
    let indent := element.indent.toNat
    match element.kind with
    | .paragraph =>
      commentLines lastIndent true element.comment ++
        .newlines element.blanks.toNat :: .spaces indent :: fillFrom indent false separate rest
    | .lineEnd =>
      (if element.comment.isEmpty then [] else .spaces 2 :: firstComment element) ++
        .newlines (element.blanks + 1).toNat :: .spaces indent ::
          fillFrom indent false separate rest
    | .interstitial =>
      (if crowded then [.spaces 1] else []) ++ firstComment element ++
        fillFrom lastIndent true separate rest

/-- Prints the fodder between two tokens. -/
def fill (fodder : Fodder) (crowded separate : Bool) : List Piece :=
  fillFrom 0 crowded separate fodder

end JsonnetTree
