/-!
# Nesting of a text

The brackets of a text can be counted without reading it as JSON. The count bounds how
deeply the value of the text is nested before any of it is built.
-/

namespace JsonnetTree.Json

/-- The state of a count of brackets in a text: whether it is inside a string, whether the
next character of that string is escaped, the depth reached, and the greatest depth so far. -/
structure BracketCount where
  quoted : Bool
  escaped : Bool
  depth : Nat
  deepest : Nat
  deriving DecidableEq, Inhabited, Repr

/-- Counts one more character. Closing brackets never bring the depth below zero. -/
def BracketCount.feed (b : BracketCount) (c : Char) : BracketCount :=
  if b.quoted then
    if b.escaped then { b with escaped := false }
    else if c = '\\' then { b with escaped := true }
    else if c = '"' then { b with quoted := false }
    else b
  else if c = '"' then { b with quoted := true }
  else if c = '[' ∨ c = '\x7b' then
    { b with depth := b.depth + 1, deepest := max b.deepest (b.depth + 1) }
  else if c = ']' ∨ c = '\x7d' then { b with depth := b.depth - 1 }
  else b

/-- How deeply the brackets of a text are nested, whether or not the text is JSON. -/
def bracketDepth (text : List Char) : Nat :=
  (text.foldl BracketCount.feed ⟨false, false, 0, 0⟩).deepest

end JsonnetTree.Json
