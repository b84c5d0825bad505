import JsonnetTree.Expr.Children

/-!
# Expressions and trees

An expression is a form together with its location and the fodder before it. A tree is an
expression with the fodder after its last token, and says which kind of objects it holds.
-/

namespace JsonnetTree

/-- An expression of a syntax tree. -/
structure Expr where
  location : Location
  fodder : Fodder
  form : Form Expr

instance : Inhabited Expr := ⟨⟨.unset, [], .null⟩⟩

namespace Expr

/-- The children of an expression, in order. -/
def children (e : Expr) : List Expr := e.form.children

/-- The children of an expression that can be replaced in place, in the order in which this is
done. -/
def exposed (e : Expr) : List Expr := e.form.exposed

/-- Replaces the children of an expression and nothing else. -/
def withChildren (e : Expr) (new : List Expr) : Expr :=
  { e with form := e.form.withChildren new }

/-- An expression that no source text was read for. -/
def ofForm (form : Form Expr) : Expr := ⟨.unset, [], form⟩

/-- The value of a string literal. -/
def literal? (e : Expr) : Option String :=
  match e.form with
  | .string s => some s.value
  | _ => none

end Expr

/-- Which objects a tree may hold. -/
inductive Shape where
  /-- Objects as they are written. -/
  | raw
  /-- Objects in their basic form. -/
  | lowered
  deriving DecidableEq, Inhabited, Repr

namespace Shape

/-- All shapes. -/
def all : List Shape := [.raw, .lowered]

/-- The name of a shape in a document. -/
def tag : Shape → String
  | .raw => "raw"
  | .lowered => "lowered"

end Shape

/-- A syntax tree. -/
structure Tree where
  shape : Shape
  root : Expr
  finalFodder : Fodder
  deriving Inhabited

end JsonnetTree
