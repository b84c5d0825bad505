import JsonnetTree.Document.Schema
import JsonnetTree.Json.Brackets
import JsonnetTree.Json.Printer
import JsonnetTree.Json.Reader
import JsonnetTree.Shape

/-!
# Loading and saving trees

A tree document is a JSON text. Before it is read its brackets are counted, so that the
nesting is bounded; after it is read its shape is checked.
-/

namespace JsonnetTree

open Json

/-- The largest count. -/
def maxCount : Nat := UInt64.size - 1

/-- How deeply a document may be nested when trees may have `maxDepth` levels: each level
gets six levels of the document, and 128 levels are always allowed. -/
def nestingLimit (maxDepth : Nat) : Nat :=
  max 128 (min ((maxDepth + 1) * 6) maxCount)

/-- The greatest depth of a tree in a document within the limit. A level of a tree takes at
least three levels of the document. -/
def depthBound (maxDepth : Nat) : Nat :=
  nestingLimit maxDepth / 3

/-- Why no tree could be loaded. -/
inductive LoadError where
  /-- A source text is not Jsonnet. -/
  | source (location : Location) (message : String)
  /-- A document is not JSON, or describes no tree. -/
  | document (file : String) (complaint : Complaint)
  | tooDeep (file : String) (depth limit : Nat)
  | shape (file : String) (mismatch : ShapeMismatch)
  deriving DecidableEq, Inhabited, Repr

namespace LoadError

/-- The message of a load error. -/
def message : LoadError → String
  | .source location message => String.join [location.render, ": ", message]
  | .document file complaint =>
    String.join [file, ": invalid tree document: ", complaint.message]
  | .tooDeep file depth limit =>
    String.join [file, ": tree document nests ", toString depth, " levels deep, limit is ",
      toString limit]
  | .shape file mismatch => String.join [file, ": ", mismatch.message]

/-- The file that the error is about. -/
def file : LoadError → String
  | .source location _ => location.file
  | .document file _ => file
  | .tooDeep file _ _ => file
  | .shape file _ => file

/-- The location that a load error points at. -/
def location? : LoadError → Option Location
  | .source location _ => some location
  | .shape _ mismatch => some mismatch.location
  | .document _ _ | .tooDeep _ _ _ => none

end LoadError

/-- Reads a tree from the text of a document, without any limit. -/
def Tree.ofChars (text : List Char) : Read Tree := do
  let reading := Reading.ofChars text
  let tree ← Tree.codec.read reading.value
  if reading.trailing then .error (.fault .malformed) else .ok tree

/-- Loads a tree from the text of a document. -/
def Tree.load (maxDepth : Nat) (file text : String) : Except LoadError Tree := do
  let depth := bracketDepth text.toList
  let limit := nestingLimit maxDepth
  if limit < depth then .error (.tooDeep file depth limit)
  let tree ← (Tree.ofChars text.toList).mapError (.document file)
  tree.checkShape.mapError (.shape file)
  return tree

/-- The text of the document of a tree, without blanks. -/
def Tree.compact (t : Tree) : List Char :=
  (Tree.codec.write t).compact

/-- The text of the document of a tree, with a line for each item and member. -/
def Tree.pretty (t : Tree) : List Char :=
  (Tree.codec.write t).pretty

end JsonnetTree
