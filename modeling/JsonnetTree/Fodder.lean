/-!
# Fodder

Fodder is what stands between two tokens and means nothing: line breaks, blank
lines and comments. A tree keeps it so that it can be printed back as it was.
-/

namespace JsonnetTree

/-- How an element of fodder sits between its neighbours. -/
inductive FodderKind where
  /-- A comment inside a line. -/
  | interstitial
  /-- The end of a line, perhaps after a comment. -/
  | lineEnd
  /-- Comment lines of their own. -/
  | paragraph
  deriving DecidableEq, Inhabited, Repr

/-- All kinds of fodder, in the order in which they are listed to a reader. -/
def FodderKind.all : List FodderKind := [.interstitial, .lineEnd, .paragraph]

/-- The name of a kind in a document. -/
def FodderKind.tag : FodderKind → String
  | .interstitial => "interstitial"
  | .lineEnd => "line_end"
  | .paragraph => "paragraph"

/-- One element of fodder: its comment lines, the number of blank lines after it and
the indentation of the line that follows. -/
structure FodderElement where
  kind : FodderKind
  blanks : UInt64
  indent : UInt64
  comment : List String
  deriving DecidableEq, Inhabited, Repr

/-- All that stands between two tokens, in order. -/
abbrev Fodder := List FodderElement

end JsonnetTree
