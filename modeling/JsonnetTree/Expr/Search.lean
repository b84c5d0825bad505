import JsonnetTree.Expr.RecursionLaws

/-!
# Searching a tree with a stack

A search for the first expression with some property keeps a stack of what it has still to look
at, so that a tree of any depth can be searched. The children of an expression are put on the
stack in their order; the last of them is then on top and comes first.
-/

namespace JsonnetTree

namespace Expr

/-- How many expressions there are in an expression, counting itself. -/
def size : Expr → Nat :=
  fold fun _ below => below.foldr (· + ·) 1

/-- How many expressions there are in all that is on a stack. -/
def stackSize (stack : List (Expr × Nat)) : Nat :=
  stack.foldr (fun item total => item.1.size + total) 0

/-- The children of an expression at some depth, from the top of the stack that they are put on. -/
def pushed (e : Expr) (depth : Nat) : List (Expr × Nat) :=
  (e.children.map fun c => (c, depth + 1)).reverse

/-- What is on top of a stack adds to the rest. -/
theorem stackSize_cons (e : Expr) (depth : Nat) (rest : List (Expr × Nat)) :
    stackSize ((e, depth) :: rest) = e.size + stackSize rest := rfl

/-- Two stacks on top of each other have what both have. -/
theorem stackSize_append (top rest : List (Expr × Nat)) :
    stackSize (top ++ rest) = stackSize top + stackSize rest := by
  induction top with
  | nil => simp [stackSize]
  | cons item top ih => rw [List.cons_append, stackSize_cons, stackSize_cons, ih, Nat.add_assoc]

/-- The children have one less than the expression that they take the place of. -/
theorem stackSize_pushed (e : Expr) (depth : Nat) : stackSize (e.pushed depth) + 1 = e.size := by
  rw [size, fold_eq, pushed]
  induction e.children with
  | nil => rfl
  | cons c cs ih =>
    rw [List.map_cons, List.reverse_cons, stackSize_append, stackSize_cons, List.map_cons,
      List.foldr_cons, ← ih, ← size]
    have hempty : stackSize [] = 0 := rfl
    omega

/-- Searches what is on a stack, given with its depth and from the top, for an expression that
has some property at its depth. -/
@[semireducible]
def searchStack (p : Nat → Expr → Bool) : (stack : List (Expr × Nat)) → Option Expr
  | [] => none
  | (e, depth) :: rest => if p depth e then some e else searchStack p (e.pushed depth ++ rest)
termination_by stack => stackSize stack
decreasing_by
  have hpushed := e.stackSize_pushed depth
  rw [stackSize_append, stackSize_cons]
  omega

/-- Searches an expression for one that has some property at its depth. -/
def search (p : Nat → Expr → Bool) (e : Expr) : Option Expr :=
  searchStack p [(e, 0)]

end Expr

end JsonnetTree
