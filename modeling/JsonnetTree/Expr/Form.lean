import JsonnetTree.Expr.Parts

/-!
# Forms of expressions

A form says what an expression is and holds its subexpressions, whose type is the
parameter `α`. The type of expressions is tied up in `JsonnetTree.Expr.Basic`.
-/

namespace JsonnetTree

variable {α β : Type}

/-- A call `target(arguments)`, perhaps marked `tailstrict`. -/
structure Apply (α : Type) where
  target : α
  leftFodder : Fodder
  arguments : Arguments α
  trailingComma : Bool
  rightFodder : Fodder
  tailStrictFodder : Fodder
  tailStrict : Bool

/-- An array literal. -/
structure ArrayLiteral (α : Type) where
  elements : List (Element α)
  trailingComma : Bool
  closeFodder : Fodder

/-- An array comprehension. -/
structure ArrayComp (α : Type) where
  body : α
  commaFodder : Fodder
  trailingComma : Bool
  clauses : Clauses α
  closeFodder : Fodder

/-- An assertion in front of an expression. -/
structure Assert (α : Type) where
  condition : α
  colonFodder : Fodder
  message : Option α
  semicolonFodder : Fodder
  rest : α

/-- A binary operation. -/
structure Binary (α : Type) where
  left : α
  opFodder : Fodder
  op : BinaryOp
  right : α

/-- A conditional, with or without an alternative. -/
structure Conditional (α : Type) where
  condition : α
  thenFodder : Fodder
  yes : α
  elseFodder : Fodder
  no : Option α

/-- Access to a field by an expression or by its name. -/
structure Index (α : Type) where
  target : α
  leftFodder : Fodder
  index : Option α
  rightFodder : Fodder
  id : Option String

/-- A slice of an array. -/
structure Slice (α : Type) where
  target : α
  leftFodder : Fodder
  start : Option α
  stopFodder : Fodder
  stop : Option α
  stepFodder : Fodder
  step : Option α
  rightFodder : Fodder

/-- The test `index in super`. -/
structure InSuper (α : Type) where
  index : α
  inFodder : Fodder
  superFodder : Fodder

/-- A string literal. The two indents belong to text blocks. -/
structure StringLiteral where
  value : String
  kind : StringKind
  blockIndent : String
  termIndent : String
  deriving DecidableEq, Inhabited, Repr

/-- An object literal as it is written. -/
structure ObjectLiteral (α : Type) where
  members : List (Member α)
  trailingComma : Bool
  closeFodder : Fodder

/-- An object in its basic form: fields with computed names, local bindings and assertions. -/
structure LoweredObject (α : Type) where
  asserts : List α
  fields : List (LoweredField α)
  locals : List (Binding α)

/-- An object comprehension. -/
structure ObjectComp (α : Type) where
  members : List (Member α)
  trailingComma : Bool
  clauses : Clauses α
  closeFodder : Fodder

/-- Access to a field of `super` by an expression or by its name. -/
structure SuperIndex (α : Type) where
  dotFodder : Fodder
  index : Option α
  idFodder : Fodder
  id : Option String

/-- What an expression is. -/
inductive Form (α : Type) where
  | apply (a : Apply α)
  /-- An object literal that extends what stands before it. -/
  | applyBrace (left right : α)
  | array (a : ArrayLiteral α)
  | arrayComp (a : ArrayComp α)
  | assert (a : Assert α)
  | binary (b : Binary α)
  | conditional (c : Conditional α)
  | dollar
  | error (message : α)
  | function (params : Parameters α) (body : α)
  /-- The value of another file. The operand that names the file is not evaluated. -/
  | importCode (file : α)
  /-- The text of another file. -/
  | importText (file : α)
  | index (i : Index α)
  | slice (s : Slice α)
  | inSuper (i : InSuper α)
  | locals (binds : List (Binding α)) (body : α)
  | boolean (value : Bool)
  | null
  /-- A number, kept as it is written. -/
  | number (text : String)
  | string (s : StringLiteral)
  | object (o : ObjectLiteral α)
  | loweredObject (o : LoweredObject α)
  | objectComp (o : ObjectComp α)
  | parens (inner : α) (closeFodder : Fodder)
  | self
  | superIndex (s : SuperIndex α)
  | unary (op : UnaryOp) (operand : α)
  | var (name : String)

instance : Inhabited (Form α) := ⟨.null⟩

namespace Form

/-- The name of a form in labels and messages. -/
def name : Form α → String
  | .apply _ => "Apply"
  | .applyBrace _ _ => "ApplyBrace"
  | .array _ => "Array"
  | .arrayComp _ => "ArrayComp"
  | .assert _ => "Assert"
  | .binary _ => "Binary"
  | .conditional _ => "Conditional"
  | .dollar => "Dollar"
  | .error _ => "Error"
  | .function _ _ => "Function"
  | .importCode _ => "Import"
  | .importText _ => "ImportStr"
  | .index _ => "Index"
  | .slice _ => "Slice"
  | .inSuper _ => "InSuper"
  | .locals _ _ => "Local"
  | .boolean _ => "LiteralBoolean"
  | .null => "LiteralNull"
  | .number _ => "LiteralNumber"
  | .string _ => "LiteralString"
  | .object _ => "Object"
  | .loweredObject _ => "DesugaredObject"
  | .objectComp _ => "ObjectComp"
  | .parens _ _ => "Parens"
  | .self => "Self"
  | .superIndex _ => "SuperIndex"
  | .unary _ _ => "Unary"
  | .var _ => "Var"

/-- Replaces every subexpression. -/
def map (f : α → β) : Form α → Form β
  | .apply a => .apply ⟨f a.target, a.leftFodder, a.arguments.map f, a.trailingComma,
      a.rightFodder, a.tailStrictFodder, a.tailStrict⟩
  | .applyBrace left right => .applyBrace (f left) (f right)
  | .array a => .array ⟨a.elements.map (·.map f), a.trailingComma, a.closeFodder⟩
  | .arrayComp a => .arrayComp ⟨f a.body, a.commaFodder, a.trailingComma, a.clauses.map f,
      a.closeFodder⟩
  | .assert a => .assert ⟨f a.condition, a.colonFodder, a.message.map f, a.semicolonFodder,
      f a.rest⟩
  | .binary b => .binary ⟨f b.left, b.opFodder, b.op, f b.right⟩
  | .conditional c => .conditional ⟨f c.condition, c.thenFodder, f c.yes, c.elseFodder,
      c.no.map f⟩
  | .dollar => .dollar
  | .error message => .error (f message)
  | .function params body => .function (params.map f) (f body)
  | .importCode file => .importCode (f file)
  | .importText file => .importText (f file)
  | .index i => .index ⟨f i.target, i.leftFodder, i.index.map f, i.rightFodder, i.id⟩
  | .slice s => .slice ⟨f s.target, s.leftFodder, s.start.map f, s.stopFodder, s.stop.map f,
      s.stepFodder, s.step.map f, s.rightFodder⟩
  | .inSuper i => .inSuper ⟨f i.index, i.inFodder, i.superFodder⟩
  | .locals binds body => .locals (binds.map (·.map f)) (f body)
  | .boolean value => .boolean value
  | .null => .null
  | .number text => .number text
  | .string s => .string s
  | .object o => .object ⟨o.members.map (·.map f), o.trailingComma, o.closeFodder⟩
  | .loweredObject o => .loweredObject ⟨o.asserts.map f, o.fields.map (·.map f),
      o.locals.map (·.map f)⟩
  | .objectComp o => .objectComp ⟨o.members.map (·.map f), o.trailingComma, o.clauses.map f,
      o.closeFodder⟩
  | .parens inner closeFodder => .parens (f inner) closeFodder
  | .self => .self
  | .superIndex s => .superIndex ⟨s.dotFodder, s.index.map f, s.idFodder, s.id⟩
  | .unary op operand => .unary op (f operand)
  | .var name => .var name

/-- All subexpressions that a form holds, in the order of its parts. -/
def parts : Form α → List α
  | .apply a => a.target :: a.arguments.exprs
  | .applyBrace left right => [left, right]
  | .array a => a.elements.map (·.expr)
  | .arrayComp a => a.body :: a.clauses.exprs
  | .assert a => a.condition :: a.message.toList ++ [a.rest]
  | .binary b => [b.left, b.right]
  | .conditional c => c.condition :: c.yes :: c.no.toList
  | .error message => [message]
  | .function params body => params.fallbacks ++ [body]
  | .importCode file => [file]
  | .importText file => [file]
  | .index i => i.target :: i.index.toList
  | .slice s => s.target :: s.start.toList ++ s.stop.toList ++ s.step.toList
  | .inSuper i => [i.index]
  | .locals binds body => binds.flatMap (·.exprs) ++ [body]
  | .object o => o.members.flatMap (·.parts)
  | .loweredObject o =>
    o.asserts ++ o.fields.flatMap (fun d => [d.name, d.body]) ++ o.locals.flatMap (·.exprs)
  | .objectComp o => o.members.flatMap (·.parts) ++ o.clauses.exprs
  | .parens inner _ => [inner]
  | .superIndex s => s.index.toList
  | .unary _ operand => [operand]
  | .dollar | .boolean _ | .null | .number _ | .string _ | .self | .var _ => []

end Form

end JsonnetTree
