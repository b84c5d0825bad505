import JsonnetTree.Expr.Search
import JsonnetTree.Walk

/-!
# The depth of a tree

The depth check looks at children from the last to the first, which decides which of several
expressions below the limit is reported.
-/

namespace JsonnetTree

/-- Checks that no expression is deeper than `limit` levels below the given one. -/
def Expr.checkDepth (limit : Nat) (e : Expr) : Except WalkError Unit :=
  match e.search fun depth _ => limit < depth with
  | some deep => .error (.depthExceeded limit deep.location)
  | none => .ok ()

end JsonnetTree
