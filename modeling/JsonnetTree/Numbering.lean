import JsonnetTree.Expr.Recursion
import JsonnetTree.Walk

/-!
# Numbering expressions

Expressions of a tree are told apart by their numbers: parents come before children and
earlier children before later ones.
-/

namespace JsonnetTree

/-- An expression with its number and its numbered children. -/
inductive Numbered where
  | mk (id : Nat) (expr : Expr) (children : List Numbered)

namespace Numbered

/-- The number of an expression. -/
def id : Numbered → Nat
  | .mk id _ _ => id

/-- The expression that is numbered. -/
def expr : Numbered → Expr
  | .mk _ expr _ => expr

/-- The numbered children. -/
def children : Numbered → List Numbered
  | .mk _ _ children => children

mutual

/-- The expression and all below it, in the order of their numbers. -/
def toList : Numbered → List Numbered
  | .mk id expr children => .mk id expr children :: toListAll children

/-- Several expressions and all below them, in the order of their numbers. -/
def toListAll : List Numbered → List Numbered
  | [] => []
  | n :: rest => n.toList ++ toListAll rest

end

/-- The numbers of the children that are evaluated in place. -/
def operandIds (n : Numbered) : List Nat :=
  (n.children.take n.expr.form.operands.length).map (·.id)

/-- The numbers of the children that are evaluated in the scope of a lowered object. -/
def deferredIds (n : Numbered) : List Nat :=
  (n.children.drop n.expr.form.operands.length).map (·.id)

/-- The number of the subexpression that the expression starts with. It is always the first
child. -/
def leftmostId? (n : Numbered) : Option Nat :=
  if n.expr.form.leftmost?.isSome then n.children.head?.map (·.id) else none

end Numbered

/-- Numbers one expression after the other; each takes the next free number and gives back
the one after its last. -/
def numberAll : List (Nat → Numbered × Nat) → Nat → List Numbered × Nat
  | [], next => ([], next)
  | number :: rest, next =>
    let (first, next) := number next
    let (others, next) := numberAll rest next
    (first :: others, next)

/-- Numbers an expression and all below it. -/
def Expr.number : Expr → Nat → Numbered × Nat :=
  Expr.fold fun e children next =>
    let (children, after) := numberAll children (next + 1)
    (.mk next e children, after)

/-- Counts expressions on a walk. Numbers have 32 bits. -/
def countHook : Hook Nat := fun phase _ => do
  if phase = .pre then
    let count ← get
    if count < UInt32.size then set (count + 1)
    else throw "out of range integral type conversion attempted"

/-- Numbers a tree that is no deeper than `limit`. -/
def Expr.numbered (limit : Nat) (e : Expr) : Except WalkError Numbered := do
  ((e.walk countHook limit).run 0).1
  return (e.number 0).1

end JsonnetTree
