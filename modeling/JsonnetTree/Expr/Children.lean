import JsonnetTree.Expr.Form

/-!
# Children

Which subexpressions of a form count as its children, and in which order, is said here and
nowhere else: `Form.children` lists them and `Form.mapChildrenM` goes through them in place, so
that they can be replaced (`Form.withChildren`). The order is that of evaluation, so the local
bindings of an object come before its other members.
-/

namespace JsonnetTree

variable {α : Type}

namespace Form

/-- The subexpressions that are evaluated in place, in order. Of a lowered object these are
the names of its fields. The file operand of an import is no subexpression in this sense. -/
def operands : Form α → List α
  | .apply a => a.target :: a.arguments.exprs
  | .applyBrace left right => [left, right]
  | .array a => a.elements.map (·.expr)
  | .arrayComp a => a.body :: a.clauses.exprs
  | .assert a => a.condition :: a.message.toList ++ [a.rest]
  | .binary b => [b.left, b.right]
  | .conditional c => c.condition :: c.yes :: c.no.toList
  | .error message => [message]
  | .function params body => params.fallbacks ++ [body]
  | .index i => i.target :: i.index.toList
  | .slice s => s.target :: s.start.toList ++ s.stop.toList ++ s.step.toList
  | .inSuper i => [i.index]
  | .locals binds body => binds.flatMap (·.exprs) ++ [body]
  | .object o => Member.allExprs o.members
  | .loweredObject o => o.fields.map (·.name)
  | .objectComp o => Member.allExprs o.members ++ o.clauses.exprs
  | .parens inner _ => [inner]
  | .superIndex s => s.index.toList
  | .unary _ operand => [operand]
  | .importCode _ | .importText _ => []
  | .dollar | .boolean _ | .null | .number _ | .string _ | .self | .var _ => []

/-- The subexpressions that are evaluated in the scope of a lowered object: the bodies of its
fields and of its local bindings, and its assertions. -/
def deferred : Form α → List α
  | .loweredObject o => o.fields.map (·.body) ++ o.locals.map (·.body) ++ o.asserts
  | _ => []

/-- The children of a form: every pass over a tree goes through them, in this order. -/
def children (f : Form α) : List α :=
  f.operands ++ f.deferred

/-- The subexpression that a form starts with, for the forms that start with one. -/
def leftmost? : Form α → Option α
  | .apply a => some a.target
  | .applyBrace left _ => some left
  | .binary b => some b.left
  | .index i => some i.target
  | .inSuper i => some i.index
  | .slice s => some s.target
  | _ => none

end Form

/-! ## Going through children -/

section

variable {m : Type → Type} [Monad m] (f : α → m α)

/-- Changes the expression of a list element. -/
def Element.mapM (e : Element α) : m (Element α) := do
  return { e with expr := ← f e.expr }

/-- Changes the value of an argument. -/
def NamedArgument.mapM (a : NamedArgument α) : m (NamedArgument α) := do
  return { a with value := ← f a.value }

/-- Changes the expressions of arguments, those passed by place first. -/
def Arguments.mapM (a : Arguments α) : m (Arguments α) := do
  let positional ← a.positional.mapM (·.mapM f)
  let named ← a.named.mapM (·.mapM f)
  return ⟨positional, named⟩

/-- Changes the default value of a parameter. -/
def Parameter.mapM (p : Parameter α) : m (Parameter α) := do
  return { p with fallback := ← p.fallback.mapM f }

/-- Changes the default values of a parameter list. -/
def Parameters.mapM (ps : Parameters α) : m (Parameters α) := do
  return { ps with items := ← ps.items.mapM (·.mapM f) }

/-- Changes the default values of the parameters of a binding, then its body. -/
def Binding.mapM (b : Binding α) : m (Binding α) := do
  let params ← b.params.mapM (·.mapM f)
  let body ← f b.body
  return { b with params, body }

/-- Changes the body of a binding but not the default values of its parameters. -/
def Binding.mapBodyM (b : Binding α) : m (Binding α) := do
  return { b with body := ← f b.body }

/-- Changes the expression of a condition. -/
def Condition.mapM (c : Condition α) : m (Condition α) := do
  return { c with expr := ← f c.expr }

/-- Changes the array of a clause, then its conditions. -/
def Clause.mapM (c : Clause α) : m (Clause α) := do
  let expr ← f c.expr
  let conditions ← c.conditions.mapM (·.mapM f)
  return { c with expr, conditions }

/-- Changes the expressions of clauses, those of the outermost first. -/
def Clauses.mapM : Clauses α → m (Clauses α)
  | .outermost clause => .outermost <$> clause.mapM f
  | .inside outer clause => do
    let outer ← outer.mapM
    let clause ← clause.mapM f
    return .inside outer clause

/-- Changes the expressions of a member that take part in its meaning. -/
def Member.mapChildrenM (x : Member α) : m (Member α) := do
  let expr1 ← if x.hasNameExpr then x.expr1.mapM f else pure x.expr1
  let method ← x.method.mapM (·.mapM f)
  let expr2 ← x.expr2.mapM f
  let expr3 ← x.expr3.mapM f
  return { x with expr1, method, expr2, expr3 }

/-- Changes the expressions of a list of members, those of the local bindings first. -/
def Member.mapAllM (xs : List (Member α)) : m (List (Member α)) := do
  let xs ← xs.mapM fun x => if x.isLocal then x.mapChildrenM f else pure x
  xs.mapM fun x => if x.isLocal then pure x else x.mapChildrenM f

/-- Changes the name of a field but not its body. -/
def LoweredField.mapNameM (d : LoweredField α) : m (LoweredField α) := do
  return { d with name := ← f d.name }

/-- Changes the body of a field but not its name. -/
def LoweredField.mapBodyM (d : LoweredField α) : m (LoweredField α) := do
  return { d with body := ← f d.body }

/-- Changes the children of a form one after the other, in the order of `Form.children`, and
nothing else. -/
def Form.mapChildrenM : Form α → m (Form α)
  | .apply a => do
    let target ← f a.target
    let arguments ← a.arguments.mapM f
    return .apply { a with target, arguments }
  | .applyBrace left right => do
    let left ← f left
    let right ← f right
    return .applyBrace left right
  | .array a => do
    return .array { a with elements := ← a.elements.mapM (·.mapM f) }
  | .arrayComp a => do
    let body ← f a.body
    let clauses ← a.clauses.mapM f
    return .arrayComp { a with body, clauses }
  | .assert a => do
    let condition ← f a.condition
    let message ← a.message.mapM f
    let rest ← f a.rest
    return .assert { a with condition, message, rest }
  | .binary b => do
    let left ← f b.left
    let right ← f b.right
    return .binary { b with left, right }
  | .conditional c => do
    let condition ← f c.condition
    let yes ← f c.yes
    let no ← c.no.mapM f
    return .conditional { c with condition, yes, no }
  | .error message => .error <$> f message
  | .function params body => do
    let params ← params.mapM f
    let body ← f body
    return .function params body
  | .index i => do
    let target ← f i.target
    let index ← i.index.mapM f
    return .index { i with target, index }
  | .slice s => do
    let target ← f s.target
    let start ← s.start.mapM f
    let stop ← s.stop.mapM f
    let step ← s.step.mapM f
    return .slice { s with target, start, stop, step }
  | .inSuper i => do
    return .inSuper { i with index := ← f i.index }
  | .locals binds body => do
    let binds ← binds.mapM (·.mapM f)
    let body ← f body
    return .locals binds body
  | .object o => do
    return .object { o with members := ← Member.mapAllM f o.members }
  | .loweredObject o => do
    let fields ← o.fields.mapM (·.mapNameM f)
    let fields ← fields.mapM (·.mapBodyM f)
    let locals ← o.locals.mapM (·.mapBodyM f)
    let asserts ← o.asserts.mapM f
    return .loweredObject ⟨asserts, fields, locals⟩
  | .objectComp o => do
    let members ← Member.mapAllM f o.members
    let clauses ← o.clauses.mapM f
    return .objectComp { o with members, clauses }
  | .parens inner closeFodder => do
    return .parens (← f inner) closeFodder
  | .superIndex s => do
    return .superIndex { s with index := ← s.index.mapM f }
  | .unary op operand => .unary op <$> f operand
  | form => pure form

end

/-! ## Reading and replacing children in place -/

/-- Notes a child after those that were noted before, and keeps it. -/
def noteChild (a : α) : StateM (List α) α :=
  fun seen => (a, seen ++ [a])

/-- Takes the next of the given children, and keeps what is there when they run out. -/
def refill (old : α) : StateM (List α) α :=
  fun
  | [] => (old, [])
  | new :: rest => (new, rest)

namespace Form

/-- The subexpressions that can be replaced in place, in the order in which this is done. -/
def exposed (f : Form α) : List α :=
  (f.mapChildrenM noteChild []).2

/-- Replaces the children of a form, in the order of `children`, and nothing else. -/
def withChildren (f : Form α) (new : List α) : Form α :=
  (f.mapChildrenM refill new).1

end Form

end JsonnetTree
