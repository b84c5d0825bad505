import JsonnetTree.Fodder
import JsonnetTree.Location
import JsonnetTree.Operator

/-!
# Parts of expressions

Arguments, parameters, bindings, comprehension clauses and the members of objects. Each is
a container of expressions, whose type is the parameter `α`, so that it can be mapped and
taken apart without regard to what an expression is.
-/

namespace JsonnetTree

variable {α β : Type}

/-- An expression in a list, with the fodder before the comma that follows it. -/
structure Element (α : Type) where
  expr : α
  commaFodder : Fodder
  deriving Inhabited

/-- Changes the expression of a list element. -/
def Element.map (f : α → β) (e : Element α) : Element β where
  expr := f e.expr
  commaFodder := e.commaFodder

/-- An argument passed by name. -/
structure NamedArgument (α : Type) where
  nameFodder : Fodder
  name : String
  eqFodder : Fodder
  value : α
  commaFodder : Fodder
  deriving Inhabited

/-- Changes the value of an argument. -/
def NamedArgument.map (f : α → β) (a : NamedArgument α) : NamedArgument β where
  nameFodder := a.nameFodder
  name := a.name
  eqFodder := a.eqFodder
  value := f a.value
  commaFodder := a.commaFodder

/-- The arguments of a call: those passed by place, then those passed by name. -/
structure Arguments (α : Type) where
  positional : List (Element α)
  named : List (NamedArgument α)
  deriving Inhabited

/-- Changes the expressions of arguments. -/
def Arguments.map (f : α → β) (a : Arguments α) : Arguments β where
  positional := a.positional.map (·.map f)
  named := a.named.map (·.map f)

/-- The expressions of the arguments, in order. -/
def Arguments.exprs (a : Arguments α) : List α :=
  a.positional.map (·.expr) ++ a.named.map (·.value)

/-- A parameter of a function. -/
structure Parameter (α : Type) where
  nameFodder : Fodder
  name : String
  eqFodder : Fodder
  fallback : Option α
  commaFodder : Fodder
  location : Location
  deriving Inhabited

/-- Changes the default value of a parameter. -/
def Parameter.map (f : α → β) (p : Parameter α) : Parameter β where
  nameFodder := p.nameFodder
  name := p.name
  eqFodder := p.eqFodder
  fallback := p.fallback.map f
  commaFodder := p.commaFodder
  location := p.location

/-- A parameter list in parentheses. -/
structure Parameters (α : Type) where
  leftFodder : Fodder
  items : List (Parameter α)
  trailingComma : Bool
  rightFodder : Fodder
  deriving Inhabited

/-- The list without parameters. -/
def Parameters.empty : Parameters α := ⟨[], [], false, []⟩

/-- Changes the default values of a parameter list. -/
def Parameters.map (f : α → β) (ps : Parameters α) : Parameters β where
  leftFodder := ps.leftFodder
  items := ps.items.map (·.map f)
  trailingComma := ps.trailingComma
  rightFodder := ps.rightFodder

/-- The default values of the parameters, in order. -/
def Parameters.fallbacks (ps : Parameters α) : List α :=
  ps.items.filterMap (·.fallback)

/-- The default values of the parameters, if there is a parameter list. -/
def Parameters.fallbacks? (ps? : Option (Parameters α)) : List α :=
  ps?.toList.flatMap (·.fallbacks)

/-- A binding of a name to an expression or, with parameters, to a function. -/
structure Binding (α : Type) where
  varFodder : Fodder
  name : String
  eqFodder : Fodder
  body : α
  params : Option (Parameters α)
  closeFodder : Fodder
  location : Location
  deriving Inhabited

/-- Changes the expressions of a binding. -/
def Binding.map (f : α → β) (b : Binding α) : Binding β where
  varFodder := b.varFodder
  name := b.name
  eqFodder := b.eqFodder
  body := f b.body
  params := b.params.map (·.map f)
  closeFodder := b.closeFodder
  location := b.location

/-- The default values of the parameters of a binding, then its body. -/
def Binding.exprs (b : Binding α) : List α :=
  Parameters.fallbacks? b.params ++ [b.body]

/-- A condition of a comprehension clause. -/
structure Condition (α : Type) where
  ifFodder : Fodder
  expr : α
  deriving Inhabited

/-- Changes the expression of a condition. -/
def Condition.map (f : α → β) (c : Condition α) : Condition β where
  ifFodder := c.ifFodder
  expr := f c.expr

/-- A clause of a comprehension: a variable that runs through an array, and the conditions
that follow. -/
structure Clause (α : Type) where
  forFodder : Fodder
  varFodder : Fodder
  varName : String
  inFodder : Fodder
  expr : α
  conditions : List (Condition α)
  deriving Inhabited

/-- Changes the expressions of a clause. -/
def Clause.map (f : α → β) (c : Clause α) : Clause β where
  forFodder := c.forFodder
  varFodder := c.varFodder
  varName := c.varName
  inFodder := c.inFodder
  expr := f c.expr
  conditions := c.conditions.map (·.map f)

/-- The array of a clause, then its conditions. -/
def Clause.exprs (c : Clause α) : List α :=
  c.expr :: c.conditions.map (·.expr)

/-- The clauses of a comprehension: the outermost one, or one inside others. -/
inductive Clauses (α : Type) where
  | outermost (clause : Clause α)
  | inside (outer : Clauses α) (clause : Clause α)

instance [Inhabited α] : Inhabited (Clauses α) := ⟨.outermost default⟩

namespace Clauses

/-- Changes the expressions of clauses. -/
def map (f : α → β) : Clauses α → Clauses β
  | .outermost clause => .outermost (clause.map f)
  | .inside outer clause => .inside (outer.map f) (clause.map f)

/-- The innermost clause. -/
def innermost : Clauses α → Clause α
  | .outermost clause => clause
  | .inside _ clause => clause

/-- The clauses around the innermost one. -/
def outer? : Clauses α → Option (Clauses α)
  | .outermost _ => none
  | .inside outer _ => some outer

/-- Puts a clause inside others, if there are others. -/
def ofOuter (clause : Clause α) : Option (Clauses α) → Clauses α
  | none => .outermost clause
  | some outer => .inside outer clause

/-- The number of clauses. -/
def length : Clauses α → Nat
  | .outermost _ => 1
  | .inside outer _ => outer.length + 1

/-- Goes from the innermost clause outward, and puts each clause after those that were seen. -/
def collectOutward (seen : List (Clause α)) : Clauses α → List (Clause α)
  | .outermost clause => seen ++ [clause]
  | .inside outer clause => outer.collectOutward (seen ++ [clause])

/-- The clauses from the innermost to the outermost. -/
def inwardOut (cs : Clauses α) : List (Clause α) :=
  cs.collectOutward []

/-- The clauses in the order in which they are written, the outermost first. -/
def toList (cs : Clauses α) : List (Clause α) :=
  cs.inwardOut.reverse

/-- The expressions of all clauses, outer clauses first. -/
def exprs : Clauses α → List α
  | .outermost clause => clause.exprs
  | .inside outer clause => outer.exprs ++ clause.exprs

end Clauses

/-- A member of an object literal. Which parts it has depends on its kind: `expr1` is a name
given by an expression and `id` one given by an identifier, `expr2` is the value or the
condition, and `expr3` the message of an assertion. -/
structure Member (α : Type) where
  kind : MemberKind
  hide : Visibility
  superSugar : Bool
  method : Option (Parameters α)
  fodder1 : Fodder
  expr1 : Option α
  id : Option String
  fodder2 : Fodder
  opFodder : Fodder
  expr2 : Option α
  expr3 : Option α
  commaFodder : Fodder
  location : Location
  deriving Inhabited

namespace Member

/-- Changes the expressions of a member. -/
def map (f : α → β) (m : Member α) : Member β where
  kind := m.kind
  hide := m.hide
  superSugar := m.superSugar
  method := m.method.map (·.map f)
  fodder1 := m.fodder1
  expr1 := m.expr1.map f
  id := m.id
  fodder2 := m.fodder2
  opFodder := m.opFodder
  expr2 := m.expr2.map f
  expr3 := m.expr3.map f
  commaFodder := m.commaFodder
  location := m.location

/-- Whether the name of a member is an expression. -/
def hasNameExpr (m : Member α) : Bool :=
  m.kind == .fieldStr || m.kind == .fieldExpr

/-- Whether a member is a local binding. -/
def isLocal (m : Member α) : Bool :=
  m.kind == .localBind

/-- The expressions of a member that take part in its meaning: a name given by an expression,
the default values of its parameters, its value and its message. -/
def exprs (m : Member α) : List α :=
  (if m.hasNameExpr then m.expr1.toList else []) ++ Parameters.fallbacks? m.method ++
    m.expr2.toList ++ m.expr3.toList

/-- All expressions that a member holds, whether or not they take part in its meaning. -/
def parts (m : Member α) : List α :=
  m.expr1.toList ++ Parameters.fallbacks? m.method ++ m.expr2.toList ++ m.expr3.toList

/-- The expressions of a list of members: those of the local bindings come first. -/
def allExprs (ms : List (Member α)) : List α :=
  (ms.filter (·.isLocal)).flatMap (·.exprs) ++ (ms.filter (!·.isLocal)).flatMap (·.exprs)

end Member

/-- A field of a lowered object. -/
structure LoweredField (α : Type) where
  hide : Visibility
  name : α
  body : α
  plusSuper : Bool
  location : Location
  deriving Inhabited

/-- Changes the name and the body of a field. -/
def LoweredField.map (f : α → β) (d : LoweredField α) : LoweredField β where
  hide := d.hide
  name := f d.name
  body := f d.body
  plusSuper := d.plusSuper
  location := d.location

end JsonnetTree
