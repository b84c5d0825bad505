import JsonnetTree.Expr.Basic

/-!
# Recursion over expressions

Recursion is packaged once, in `Expr.para`: it computes a result for an expression from its
form, in which every subexpression comes with its own result. `Expr.fold` is the recursion
that goes through the children only.
-/

namespace JsonnetTree

variable {β : Type}

/-- How the result for an expression is computed from its form, in which every subexpression
is paired with its result. -/
abbrev Expr.Step (β : Type) := Expr → Form (Expr × β) → β

mutual

/-- The result for an expression. -/
def Expr.para (step : Expr.Step β) : Expr → β
  | ⟨location, fodder, form⟩ => step ⟨location, fodder, form⟩ (paraForm step form)

/-- Pairs the expressions of a form with their results. -/
def paraForm (step : Expr.Step β) : Form Expr → Form (Expr × β)
  | .apply a => .apply ⟨(a.target, a.target.para step), a.leftFodder,
      ⟨paraElements step a.arguments.positional, paraNamed step a.arguments.named⟩,
      a.trailingComma, a.rightFodder, a.tailStrictFodder, a.tailStrict⟩
  | .applyBrace left right => .applyBrace (left, left.para step) (right, right.para step)
  | .array a => .array ⟨paraElements step a.elements, a.trailingComma, a.closeFodder⟩
  | .arrayComp a => .arrayComp ⟨(a.body, a.body.para step), a.commaFodder, a.trailingComma,
      paraClauses step a.clauses, a.closeFodder⟩
  | .assert a => .assert ⟨(a.condition, a.condition.para step), a.colonFodder,
      paraOption step a.message, a.semicolonFodder, (a.rest, a.rest.para step)⟩
  | .binary b => .binary ⟨(b.left, b.left.para step), b.opFodder, b.op,
      (b.right, b.right.para step)⟩
  | .conditional c => .conditional ⟨(c.condition, c.condition.para step), c.thenFodder,
      (c.yes, c.yes.para step), c.elseFodder, paraOption step c.no⟩
  | .dollar => .dollar
  | .error message => .error (message, message.para step)
  | .function params body => .function (paraParameters step params) (body, body.para step)
  | .importCode file => .importCode (file, file.para step)
  | .importText file => .importText (file, file.para step)
  | .index i => .index ⟨(i.target, i.target.para step), i.leftFodder, paraOption step i.index,
      i.rightFodder, i.id⟩
  | .slice s => .slice ⟨(s.target, s.target.para step), s.leftFodder, paraOption step s.start,
      s.stopFodder, paraOption step s.stop, s.stepFodder, paraOption step s.step, s.rightFodder⟩
  | .inSuper i => .inSuper ⟨(i.index, i.index.para step), i.inFodder, i.superFodder⟩
  | .locals binds body => .locals (paraBindings step binds) (body, body.para step)
  | .boolean value => .boolean value
  | .null => .null
  | .number text => .number text
  | .string s => .string s
  | .object o => .object ⟨paraMembers step o.members, o.trailingComma, o.closeFodder⟩
  | .loweredObject o => .loweredObject ⟨paraExprs step o.asserts, paraFields step o.fields,
      paraBindings step o.locals⟩
  | .objectComp o => .objectComp ⟨paraMembers step o.members, o.trailingComma,
      paraClauses step o.clauses, o.closeFodder⟩
  | .parens inner closeFodder => .parens (inner, inner.para step) closeFodder
  | .self => .self
  | .superIndex s => .superIndex ⟨s.dotFodder, paraOption step s.index, s.idFodder, s.id⟩
  | .unary op operand => .unary op (operand, operand.para step)
  | .var name => .var name

/-- Pairs an expression that may be missing with its result. -/
def paraOption (step : Expr.Step β) : Option Expr → Option (Expr × β)
  | none => none
  | some e => some (e, e.para step)

/-- Pairs expressions with their results. -/
def paraExprs (step : Expr.Step β) : List Expr → List (Expr × β)
  | [] => []
  | e :: rest => (e, e.para step) :: paraExprs step rest

/-- Pairs the expressions of list elements with their results. -/
def paraElements (step : Expr.Step β) : List (Element Expr) → List (Element (Expr × β))
  | [] => []
  | e :: rest => ⟨(e.expr, e.expr.para step), e.commaFodder⟩ :: paraElements step rest

/-- Pairs the expressions of arguments passed by name with their results. -/
def paraNamed (step : Expr.Step β) : List (NamedArgument Expr) → List (NamedArgument (Expr × β))
  | [] => []
  | a :: rest => ⟨a.nameFodder, a.name, a.eqFodder, (a.value, a.value.para step), a.commaFodder⟩ ::
      paraNamed step rest

/-- Pairs the expressions of parameters with their results. -/
def paraParameterList (step : Expr.Step β) : List (Parameter Expr) → List (Parameter (Expr × β))
  | [] => []
  | p :: rest => ⟨p.nameFodder, p.name, p.eqFodder, paraOption step p.fallback, p.commaFodder,
      p.location⟩ :: paraParameterList step rest

/-- Pairs the expressions of a parameter list with their results. -/
def paraParameters (step : Expr.Step β) : Parameters Expr → Parameters (Expr × β)
  | ps => ⟨ps.leftFodder, paraParameterList step ps.items, ps.trailingComma, ps.rightFodder⟩

/-- Pairs the expressions of a parameter list that may be missing with their results. -/
def paraParameters? (step : Expr.Step β) : Option (Parameters Expr) → Option (Parameters (Expr × β))
  | none => none
  | some ps => some (paraParameters step ps)

/-- Pairs the expressions of bindings with their results. -/
def paraBindings (step : Expr.Step β) : List (Binding Expr) → List (Binding (Expr × β))
  | [] => []
  | b :: rest => ⟨b.varFodder, b.name, b.eqFodder, (b.body, b.body.para step),
      paraParameters? step b.params, b.closeFodder, b.location⟩ :: paraBindings step rest

/-- Pairs the expressions of conditions with their results. -/
def paraConditions (step : Expr.Step β) : List (Condition Expr) → List (Condition (Expr × β))
  | [] => []
  | c :: rest => ⟨c.ifFodder, (c.expr, c.expr.para step)⟩ :: paraConditions step rest

/-- Pairs the expressions of comprehension clauses with their results. -/
def paraClauses (step : Expr.Step β) : Clauses Expr → Clauses (Expr × β)
  | .outermost c => .outermost ⟨c.forFodder, c.varFodder, c.varName, c.inFodder,
      (c.expr, c.expr.para step), paraConditions step c.conditions⟩
  | .inside outer c => .inside (paraClauses step outer) ⟨c.forFodder, c.varFodder, c.varName,
      c.inFodder, (c.expr, c.expr.para step), paraConditions step c.conditions⟩

/-- Pairs the expressions of members of an object with their results. -/
def paraMembers (step : Expr.Step β) : List (Member Expr) → List (Member (Expr × β))
  | [] => []
  | m :: rest => ⟨m.kind, m.hide, m.superSugar, paraParameters? step m.method, m.fodder1,
      paraOption step m.expr1, m.id, m.fodder2, m.opFodder, paraOption step m.expr2,
      paraOption step m.expr3, m.commaFodder, m.location⟩ :: paraMembers step rest

/-- Pairs the expressions of fields of a lowered object with their results. -/
def paraFields (step : Expr.Step β) : List (LoweredField Expr) → List (LoweredField (Expr × β))
  | [] => []
  | d :: rest => ⟨d.hide, (d.name, d.name.para step), (d.body, d.body.para step), d.plusSuper,
      d.location⟩ :: paraFields step rest

end

namespace Expr

/-- The result for an expression from the results for its children. -/
def fold (f : Expr → List β → β) : Expr → β :=
  para fun e form => f e (form.children.map (·.2))

/-- How many levels of subexpressions an expression has, counting itself. -/
def height : Expr → Nat :=
  para fun _ form => (form.parts.map (·.2)).foldr max 0 + 1

end Expr

end JsonnetTree
