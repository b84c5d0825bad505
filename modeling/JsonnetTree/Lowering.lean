import JsonnetTree.Depth
import JsonnetTree.Expr.Build
import JsonnetTree.Expr.Recursion

/-!
# Lowering objects

Lowering turns every object literal into its basic form: names become expressions, methods
become functions, and assertions become conditionals that fail with a message.
-/

namespace JsonnetTree

/-- Why a tree cannot be lowered. -/
inductive LowerError where
  | walk (e : WalkError)
  /-- The tree is not raw. -/
  | wrongShape (found : Shape)
  /-- A member lacks a part that its kind needs. -/
  | missingPart (part : String) (location : Location)
  deriving DecidableEq, Inhabited, Repr

namespace LowerError

/-- The message of a lowering error. -/
def message : LowerError → String
  | .walk e => e.message
  | .wrongShape found =>
    String.join ["lowering expects a ", Shape.raw.tag, " tree, got a ", found.tag, " tree"]
  | .missingPart part location =>
    String.join ["object member at ", location.render, " has no ", part]

/-- The location that a lowering error points at. -/
def location? : LowerError → Option Location
  | .walk e => some e.location
  | .wrongShape _ => none
  | .missingPart _ location => some location

end LowerError

/-- The message of an assertion that has none of its own. -/
def defaultAssertMessage : String := "Object assertion failed."

namespace LoweredObject

/-- The object without any member. -/
def empty : LoweredObject Expr := ⟨[], [], []⟩

/-- The members of two objects together. -/
def append (a b : LoweredObject Expr) : LoweredObject Expr :=
  ⟨a.asserts ++ b.asserts, a.fields ++ b.fields, a.locals ++ b.locals⟩

end LoweredObject

namespace Member

variable (m : Member Expr)

/-- Takes a part that a member needs. -/
def need {α : Type} (part : Option α) (name : String) : Except LowerError α :=
  match part with
  | some a => .ok a
  | none => .error (.missingPart name m.location)

/-- The value of a member; that of a method is a function. -/
def loweredValue : Except LowerError Expr := do
  let body ← m.need m.expr2 "value"
  match m.method with
  | some params => return { Expr.ofForm (.function params body) with location := m.location }
  | none => return body

/-- The name of a field as an expression without fodder. -/
def loweredName : Except LowerError Expr := do
  match m.kind with
  | .fieldId => return Build.string (← m.need m.id "name")
  | _ => return { ← m.need m.expr1 "name" with fodder := [] }

/-- The lowered object that holds just this member. What is made for an assertion has the
location of the member or, if that is unset, of the object. -/
def lower (owner : Location) : Except LowerError (LoweredObject Expr) := do
  match m.kind with
  | .localBind =>
    let name ← m.need m.id "name"
    let body ← m.loweredValue
    return { LoweredObject.empty with
      locals := [⟨m.fodder2, name, m.opFodder, body, none, [], m.location⟩] }
  | .assert =>
    let condition ← m.need m.expr2 "condition"
    let message := m.expr3.getD (Build.string defaultAssertMessage)
    let check := Build.conditional condition (Build.boolean true) (some (Build.error message))
    return { LoweredObject.empty with
      asserts := [{ check with location := m.location.orOwner owner }] }
  | .fieldId | .fieldStr | .fieldExpr =>
    let name ← m.loweredName
    let body ← m.loweredValue
    return { LoweredObject.empty with
      fields := [⟨m.hide, name, body, m.superSugar, m.location⟩] }

end Member

/-- Lowers an object literal whose members are lowered. -/
def ObjectLiteral.lower (o : ObjectLiteral Expr) (owner : Location) :
    Except LowerError (LoweredObject Expr) := do
  let parts ← o.members.mapM (·.lower owner)
  return parts.foldr LoweredObject.append .empty

/-- Lowers an expression whose children are lowered. -/
def Expr.lowerHere (e : Expr) : Except LowerError Expr := do
  match e.form with
  | .object o => return { e with form := .loweredObject (← o.lower e.location) }
  | _ => return e

/-- Lowers all objects of an expression, children first. -/
def Expr.lower : Expr → Except LowerError Expr :=
  Expr.fold fun e children => do
    let children ← children.mapM id
    (e.withChildren children).lowerHere

/-- Lowers all objects of a raw tree that is no deeper than `limit`. -/
def Tree.lower (limit : Nat) (t : Tree) : Except LowerError Tree := do
  if t.shape ≠ .raw then .error (.wrongShape t.shape)
  (t.root.checkDepth limit).mapError .walk
  let root ← t.root.lower
  return { t with shape := .lowered, root }

end JsonnetTree
