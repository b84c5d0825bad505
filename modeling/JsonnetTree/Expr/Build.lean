import JsonnetTree.Expr.Basic

/-!
# Building expressions

Expressions and members that no source text was read for: they have neither location nor
fodder, and so are printed in the plain layout.
-/

namespace JsonnetTree.Build

/-- A variable. -/
def var (name : String) : Expr := .ofForm (.var name)

/-- A number, given by its text. -/
def number (text : String) : Expr := .ofForm (.number text)

/-- A string in double quotes. -/
def string (value : String) : Expr := .ofForm (.string ⟨value, .double, "", ""⟩)

/-- A boolean literal. -/
def boolean (value : Bool) : Expr := .ofForm (.boolean value)

/-- The null literal. -/
def null : Expr := .ofForm .null

/-- The outermost object. -/
def dollar : Expr := .ofForm .dollar

/-- The object around an expression. -/
def self : Expr := .ofForm .self

/-- A binary operation. -/
def binary (left : Expr) (op : BinaryOp) (right : Expr) : Expr :=
  .ofForm (.binary ⟨left, [], op, right⟩)

/-- A unary operation. -/
def unary (op : UnaryOp) (operand : Expr) : Expr := .ofForm (.unary op operand)

/-- An expression in parentheses. -/
def parens (inner : Expr) : Expr := .ofForm (.parens inner [])

/-- An error with a message. -/
def error (message : Expr) : Expr := .ofForm (.error message)

/-- An import of a file as code. -/
def importCode (path : String) : Expr := .ofForm (.importCode (string path))

/-- An import of a file as text. -/
def importText (path : String) : Expr := .ofForm (.importText (string path))

/-- A conditional, with or without an alternative. -/
def conditional (condition yes : Expr) (no : Option Expr) : Expr :=
  .ofForm (.conditional ⟨condition, [], yes, [], no⟩)

/-- An assertion in front of an expression. -/
def assert (condition : Expr) (message : Option Expr) (rest : Expr) : Expr :=
  .ofForm (.assert ⟨condition, [], message, [], rest⟩)

/-- An expression in a list. -/
def element (expr : Expr) : Element Expr := ⟨expr, []⟩

/-- A call with arguments by place and by name. -/
def apply (target : Expr) (positional : List Expr) (named : List (String × Expr)) : Expr :=
  let named := named.map fun (name, value) => ⟨[], name, [], value, []⟩
  .ofForm (.apply ⟨target, [], ⟨positional.map element, named⟩, false, [], [], false⟩)

/-- An array. -/
def array (elements : List Expr) : Expr :=
  .ofForm (.array ⟨elements.map element, false, []⟩)

/-- `target[index]` -/
def index (target index : Expr) : Expr :=
  .ofForm (.index ⟨target, [], some index, [], none⟩)

/-- `target.id` -/
def indexId (target : Expr) (id : String) : Expr :=
  .ofForm (.index ⟨target, [], none, [], some id⟩)

/-- Parameters without default values. -/
def parameters (names : List String) : Parameters Expr :=
  ⟨[], names.map fun name => ⟨[], name, [], none, [], .unset⟩, false, []⟩

/-- A function whose parameters have no default values. -/
def function (names : List String) (body : Expr) : Expr :=
  .ofForm (.function (parameters names) body)

/-- A binding without parameters. -/
def binding (name : String) (body : Expr) : Binding Expr :=
  ⟨[], name, [], body, none, [], .unset⟩

/-- Local bindings in front of an expression. -/
def locals (binds : List (String × Expr)) (body : Expr) : Expr :=
  .ofForm (.locals (binds.map fun (name, body) => binding name body) body)

/-- `for name in expr if condition ...`, with no other clause around it. -/
def clause (name : String) (expr : Expr) (conditions : List Expr) : Clauses Expr :=
  .outermost ⟨[], [], name, [], expr, conditions.map fun c => ⟨[], c⟩⟩

/-- An array comprehension. -/
def arrayComp (body : Expr) (clauses : Clauses Expr) : Expr :=
  .ofForm (.arrayComp ⟨body, [], false, clauses, []⟩)

/-! ## Objects as they are written -/

/-- A member without any part. -/
def member (kind : MemberKind) (hide : Visibility) : Member Expr where
  kind := kind
  hide := hide
  superSugar := false
  method := none
  fodder1 := []
  expr1 := none
  id := none
  fodder2 := []
  opFodder := []
  expr2 := none
  expr3 := none
  commaFodder := []
  location := .unset

/-- An object with the given members. -/
def object (members : List (Member Expr)) : Expr :=
  .ofForm (.object ⟨members, false, []⟩)

/-- `name: body` -/
def fieldId (name : String) (hide : Visibility) (body : Expr) : Member Expr :=
  { member .fieldId hide with id := some name, expr2 := some body }

/-- `"name": body` -/
def fieldStr (name : String) (hide : Visibility) (body : Expr) : Member Expr :=
  { member .fieldStr hide with expr1 := some (string name), expr2 := some body }

/-- `[name]: body` -/
def fieldExpr (name : Expr) (hide : Visibility) (body : Expr) : Member Expr :=
  { member .fieldExpr hide with expr1 := some name, expr2 := some body }

/-- `local name = body` in an object. -/
def objectLocal (name : String) (body : Expr) : Member Expr :=
  { member .localBind .inherit with id := some name, expr2 := some body }

/-- `assert condition : message` in an object. -/
def objectAssert (condition : Expr) (message : Option Expr) : Member Expr :=
  { member .assert .inherit with expr2 := some condition, expr3 := message }

/-! ## Lowered objects -/

/-- A field of a lowered object that inherits its visibility. -/
def loweredField (name body : Expr) : LoweredField Expr :=
  ⟨.inherit, name, body, false, .unset⟩

/-- A lowered object. -/
def loweredObject (asserts : List Expr) (fields : List (LoweredField Expr))
    (locals : List (Binding Expr)) : Expr :=
  .ofForm (.loweredObject ⟨asserts, fields, locals⟩)

end JsonnetTree.Build
