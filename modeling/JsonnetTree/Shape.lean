import JsonnetTree.Expr.Search

/-!
# The shape of a tree

A raw tree holds objects as they are written, a lowered tree only objects in their basic
form. The check searches the tree with a stack and so looks at children from the last to the
first, which decides which of several misplaced objects is reported.
-/

namespace JsonnetTree

/-- Whether a tree of this shape must not hold the given form. -/
def Shape.forbids : Shape → Form Expr → Bool
  | .raw, .loweredObject _ => true
  | .lowered, .object _ => true
  | _, _ => false

/-- An object that does not belong into a tree of the declared shape. -/
structure ShapeMismatch where
  shape : Shape
  form : String
  location : Location
  deriving DecidableEq, Inhabited, Repr

/-- The message for an object that does not belong into a tree. -/
def ShapeMismatch.message (m : ShapeMismatch) : String :=
  m.shape.tag ++ " tree contains a " ++ m.form ++ " node at " ++ m.location.render

/-- Checks that the objects of a tree have its declared shape. -/
def Tree.checkShape (t : Tree) : Except ShapeMismatch Unit :=
  match t.root.search fun _ e => t.shape.forbids e.form with
  | some e => .error ⟨t.shape, e.form.name, e.location⟩
  | none => .ok ()

end JsonnetTree
