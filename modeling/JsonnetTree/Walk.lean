import JsonnetTree.Expr.Basic

/-!
# Walking a tree

A walk calls a hook three times for every expression: before its children, between the last
child and those before it, and after its children. The first hook that fails ends the walk,
and so does an expression below the depth limit.
-/

namespace JsonnetTree

/-- When a hook is called. -/
inductive Phase where
  | pre
  | mid
  | post
  deriving DecidableEq, Inhabited, Repr

/-- The name of a phase in messages. -/
def Phase.name : Phase → String
  | .pre => "pre"
  | .mid => "in"
  | .post => "post"

/-- Why a walk ends early. -/
inductive WalkError where
  | hook (phase : Phase) (location : Location) (message : String)
  | depthExceeded (limit : Nat) (location : Location)
  deriving DecidableEq, Inhabited, Repr

namespace WalkError

/-- The message of a walk error. -/
def message : WalkError → String
  | .hook phase location message =>
    String.join [phase.name, " error at ", location.render, ": ", message]
  | .depthExceeded limit location =>
    String.join ["maximum nesting depth ", toString limit, " exceeded at ", location.render]

/-- The phase of the hook that failed. -/
def phase? : WalkError → Option Phase
  | .hook phase _ _ => some phase
  | .depthExceeded _ _ => none

/-- The location of the expression at which the walk ended. -/
def location : WalkError → Location
  | .hook _ location _ => location
  | .depthExceeded _ location => location

end WalkError

/-- The depth limit where none is given. -/
def defaultDepth : Nat := 512

variable {σ : Type}

/-- A walk that keeps a state, also when it ends early. -/
abbrev Walk (σ : Type) := ExceptT WalkError (StateM σ)

/-- What is done at an expression in a phase. A hook fails with a message. -/
abbrev Hook (σ : Type) := Phase → Expr → ExceptT String (StateM σ) Unit

/-- Calls a hook. -/
def Hook.call (hook : Hook σ) (phase : Phase) (e : Expr) : Walk σ Unit :=
  fun state =>
    match hook phase e state with
    | (.ok (), state) => (.ok (), state)
    | (.error message, state) => (.error (.hook phase e.location message), state)

/-- Walks an expression with room for `room` levels. -/
def Expr.walkWithin (hook : Hook σ) (limit : Nat) : (room : Nat) → Expr → Walk σ Unit
  | 0, e => throw (.depthExceeded limit e.location)
  | room + 1, e => do
    hook.call .pre e
    e.children.dropLast.forM (Expr.walkWithin hook limit room)
    hook.call .mid e
    e.children.getLast?.toList.forM (Expr.walkWithin hook limit room)
    hook.call .post e

/-- Walks an expression; the deepest level that may be visited is `limit`, and that of the
expression itself is zero. -/
def Expr.walk (hook : Hook σ) (limit : Nat) (e : Expr) : Walk σ Unit :=
  e.walkWithin hook limit (limit + 1)

end JsonnetTree
