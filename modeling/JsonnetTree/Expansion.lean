import JsonnetTree.Depth
import JsonnetTree.Expr.Build
import JsonnetTree.Expr.Recursion

/-!
# Expanding local bindings

Every variable that names a local binding is replaced by the body of that binding, and the
body is expanded in turn. Scopes do not matter: of several bindings of one name the last one
counts. A binding that refers to itself runs into the depth limit.
-/

namespace JsonnetTree

/-- An expression and all below it, parents before children. -/
def Expr.preorder : Expr → List Expr :=
  Expr.fold fun e below => e :: below.flatten

/-- The expression that a variable is replaced by. Functions and imports are put in
parentheses, so that they can stand anywhere. -/
def Binding.captured (b : Binding Expr) : Expr :=
  match b.params, b.body.form with
  | some params, _ => Build.parens (.ofForm (.function params b.body))
  | none, .importCode _ => Build.parens b.body
  | none, _ => b.body

/-- The names that an expression itself binds, with what they are replaced by. -/
def Expr.capturedHere (e : Expr) : List (String × Expr) :=
  match e.form with
  | .locals binds _ => binds.map fun b => (b.name, b.captured)
  | _ => []

/-- All names bound by local expressions, in the order in which they are met. -/
def Expr.captured (e : Expr) : List (String × Expr) :=
  e.preorder.flatMap (·.capturedHere)

/-- What an expression is replaced by, if it is a variable with a binding. The last binding
of a name counts. -/
def Expr.replacement? (captured : List (String × Expr)) (e : Expr) : Option Expr :=
  match e.form with
  | .var name => captured.reverse.lookup name
  | _ => none

/-- Expands an expression with room for `room` levels. A replacement takes a level of its own. -/
def Expr.expandWithin (captured : List (String × Expr)) (limit : Nat) :
    (room : Nat) → Expr → Except WalkError Expr
  | 0, e => .error (.depthExceeded limit e.location)
  | room + 1, e =>
    match e.replacement? captured with
    | some body => Expr.expandWithin captured limit room body
    | none => do
      let children ← e.children.mapM (Expr.expandWithin captured limit room)
      return e.withChildren children

/-- Expands the local bindings of a tree that is no deeper than `limit`. -/
def Tree.expand (limit : Nat) (t : Tree) : Except WalkError Tree := do
  t.root.checkDepth limit
  let root ← t.root.expandWithin t.root.captured limit (limit + 1)
  return { t with root }

end JsonnetTree
