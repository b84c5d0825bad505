import JsonnetTree.Codec.Record
import JsonnetTree.Codec.Variant
import JsonnetTree.Expr.Recursion

/-!
# The schema of tree documents

Every type that a tree is made of, described once by its fields. Types that hold expressions
are described for any codec of expressions; the recursion is tied up in `Expr.codec`.
-/

namespace JsonnetTree

open Json

variable {α : Type}

/-! ## Locations and fodder -/

/-- The fields of a position. -/
def Position.record : Record Position where
  name := "Position"
  types := _
  fields := .required "line" .word32 <| .required "column" .word32 .nil
  toRow p := (p.line, p.column, ())
  ofRow | (line, column, ()) => { line, column }

/-- The fields of a location. -/
def Location.record : Record Location where
  name := "LocationRange"
  types := _
  fields :=
    .withDefault "file_name" .string "" <|
    .withDefault "begin" Position.record.codec .origin <|
    .withDefault "end" Position.record.codec .origin .nil
  toRow l := (l.file, l.start, l.stop, ())
  ofRow | (file, start, stop, ()) => { file, start, stop }

/-- Reads and writes a location. -/
def Location.codec : Codec Location := Location.record.codec

/-- The fields of an element of fodder. -/
def FodderElement.record : Record FodderElement where
  name := "FodderElement"
  types := _
  fields :=
    .required "kind" (.word FodderKind.all FodderKind.tag) <|
    .withDefault "blanks" .word64 0 <|
    .withDefault "indent" .word64 0 <|
    .withDefault "comment" (.list .string) [] .nil
  toRow f := (f.kind, f.blanks, f.indent, f.comment, ())
  ofRow | (kind, blanks, indent, comment, ()) => { kind, blanks, indent, comment }

/-- Reads and writes fodder, as a list of its elements. -/
def Fodder.codec : Codec Fodder := .list FodderElement.record.codec

namespace Fields

variable {ts : List Type}

/-- Adds a field for fodder, which may be left out. -/
def fodder (name : String) (rest : Fields ts) : Fields (Fodder :: ts) :=
  .withDefault name Fodder.codec [] rest

/-- Adds a field for a location, which may be left out. -/
def location (name : String) (rest : Fields ts) : Fields (Location :: ts) :=
  .withDefault name Location.codec .unset rest

/-- Adds a field for a switch that is off when it is left out. -/
def switch (name : String) (rest : Fields ts) : Fields (Bool :: ts) :=
  .withDefault name .boolean false rest

/-- Adds a field for a list that is empty when it is left out. -/
def items (name : String) (codec : Codec α) (rest : Fields ts) : Fields (List α :: ts) :=
  .withDefault name codec.list [] rest

end Fields

/-! ## Parts of expressions -/

section Parts

variable (expr : Codec α)

/-- The fields of an expression in a list. -/
def Element.record : Record (Element α) where
  name := "CommaSeparatedExpr"
  types := _
  fields := .required "expr" expr <| .fodder "comma_fodder" .nil
  toRow e := (e.expr, e.commaFodder, ())
  ofRow | (expr, commaFodder, ()) => { expr, commaFodder }

/-- The fields of an argument passed by name. -/
def NamedArgument.record : Record (NamedArgument α) where
  name := "NamedArgument"
  types := _
  fields :=
    .fodder "name_fodder" <|
    .required "name" .string <|
    .fodder "eq_fodder" <|
    .required "arg" expr <|
    .fodder "comma_fodder" .nil
  toRow a := (a.nameFodder, a.name, a.eqFodder, a.value, a.commaFodder, ())
  ofRow
    | (nameFodder, name, eqFodder, value, commaFodder, ()) =>
      { nameFodder, name, eqFodder, value, commaFodder }

/-- The fields of the arguments of a call. -/
def Arguments.record : Record (Arguments α) where
  name := "Arguments"
  types := _
  fields :=
    .items "positional" (Element.record expr).codec <|
    .items "named" (NamedArgument.record expr).codec .nil
  toRow a := (a.positional, a.named, ())
  ofRow | (positional, named, ()) => { positional, named }

/-- The fields of a parameter. -/
def Parameter.record : Record (Parameter α) where
  name := "Parameter"
  types := _
  fields :=
    .fodder "name_fodder" <|
    .required "name" .string <|
    .fodder "eq_fodder" <|
    .optional "default_arg" expr <|
    .fodder "comma_fodder" <|
    .location "loc" .nil
  toRow p := (p.nameFodder, p.name, p.eqFodder, p.fallback, p.commaFodder, p.location, ())
  ofRow
    | (nameFodder, name, eqFodder, fallback, commaFodder, location, ()) =>
      { nameFodder, name, eqFodder, fallback, commaFodder, location }

/-- The fields of a parameter list. -/
def Parameters.record : Record (Parameters α) where
  name := "Params"
  types := _
  fields :=
    .fodder "paren_left_fodder" <|
    .items "parameters" (Parameter.record expr).codec <|
    .switch "trailing_comma" <|
    .fodder "paren_right_fodder" .nil
  toRow ps := (ps.leftFodder, ps.items, ps.trailingComma, ps.rightFodder, ())
  ofRow
    | (leftFodder, items, trailingComma, rightFodder, ()) =>
      { leftFodder, items, trailingComma, rightFodder }

/-- The fields of a binding. -/
def Binding.record : Record (Binding α) where
  name := "LocalBind"
  types := _
  fields :=
    .fodder "var_fodder" <|
    .required "variable" .string <|
    .fodder "eq_fodder" <|
    .required "body" expr <|
    .optional "fun" (Parameters.record expr).codec <|
    .fodder "close_fodder" <|
    .location "loc" .nil
  toRow b := (b.varFodder, b.name, b.eqFodder, b.body, b.params, b.closeFodder, b.location, ())
  ofRow
    | (varFodder, name, eqFodder, body, params, closeFodder, location, ()) =>
      { varFodder, name, eqFodder, body, params, closeFodder, location }

/-- The fields of a condition of a comprehension. -/
def Condition.record : Record (Condition α) where
  name := "IfSpec"
  types := _
  fields := .fodder "if_fodder" <| .required "expr" expr .nil
  toRow c := (c.ifFodder, c.expr, ())
  ofRow | (ifFodder, expr, ()) => { ifFodder, expr }

/-- A clause is described together with the clauses around it. -/
def Clauses.record (outer : Codec (Clauses α)) : Record (Clauses α) where
  name := "ForSpec"
  types := _
  fields :=
    .fodder "for_fodder" <|
    .fodder "var_fodder" <|
    .required "var_name" .string <|
    .fodder "in_fodder" <|
    .required "expr" expr <|
    .items "conditions" (Condition.record expr).codec <|
    .optional "outer" outer .nil
  toRow cs :=
    let c := cs.innermost
    (c.forFodder, c.varFodder, c.varName, c.inFodder, c.expr, c.conditions, cs.outer?, ())
  ofRow
    | (forFodder, varFodder, varName, inFodder, expr, conditions, outer, ()) =>
      .ofOuter { forFodder, varFodder, varName, inFodder, expr, conditions } outer

/-- Chains of at most `length` clauses. -/
def Clauses.codecUpTo : (length : Nat) → Codec (Clauses α)
  | 0 => { read := fun _ => .error (.fault .malformed), write := fun _ => .null }
  | length + 1 => (Clauses.record expr (Clauses.codecUpTo length)).codec

/-- Chains of any length. A value holds no longer chain than its nesting. -/
def Clauses.codec : Codec (Clauses α) where
  read v := (Clauses.codecUpTo expr (v.nesting + 1)).read v
  write cs := (Clauses.codecUpTo expr cs.length).write cs

/-- The fields of a member of an object. -/
def Member.record : Record (Member α) where
  name := "ObjectField"
  types := _
  fields :=
    .required "kind" (.word MemberKind.all MemberKind.tag) <|
    .required "hide" (.word Visibility.all Visibility.tag) <|
    .switch "super_sugar" <|
    .optional "method" (Parameters.record expr).codec <|
    .fodder "fodder1" <|
    .optional "expr1" expr <|
    .optional "id" .string <|
    .fodder "fodder2" <|
    .fodder "op_fodder" <|
    .optional "expr2" expr <|
    .optional "expr3" expr <|
    .fodder "comma_fodder" <|
    .location "loc" .nil
  toRow m := (m.kind, m.hide, m.superSugar, m.method, m.fodder1, m.expr1, m.id, m.fodder2,
    m.opFodder, m.expr2, m.expr3, m.commaFodder, m.location, ())
  ofRow
    | (kind, hide, superSugar, method, fodder1, expr1, id, fodder2, opFodder, expr2, expr3,
        commaFodder, location, ()) =>
      { kind, hide, superSugar, method, fodder1, expr1, id, fodder2, opFodder, expr2, expr3,
        commaFodder, location }

/-- The fields of a field of a lowered object. -/
def LoweredField.record : Record (LoweredField α) where
  name := "DesugaredField"
  types := _
  fields :=
    .required "hide" (.word Visibility.all Visibility.tag) <|
    .required "name" expr <|
    .required "body" expr <|
    .switch "plus_super" <|
    .location "loc" .nil
  toRow d := (d.hide, d.name, d.body, d.plusSuper, d.location, ())
  ofRow | (hide, name, body, plusSuper, location, ()) => { hide, name, body, plusSuper, location }

/-! ## Forms -/

/-- The fields of a call. -/
def Apply.record : Record (Apply α) where
  name := "Apply"
  types := _
  fields :=
    .required "target" expr <|
    .fodder "fodder_left" <|
    .withDefault "arguments" (Arguments.record expr).codec ⟨[], []⟩ <|
    .switch "trailing_comma" <|
    .fodder "fodder_right" <|
    .fodder "tail_strict_fodder" <|
    .switch "tail_strict" .nil
  toRow a := (a.target, a.leftFodder, a.arguments, a.trailingComma, a.rightFodder,
    a.tailStrictFodder, a.tailStrict, ())
  ofRow
    | (target, leftFodder, arguments, trailingComma, rightFodder, tailStrictFodder,
        tailStrict, ()) =>
      { target, leftFodder, arguments, trailingComma, rightFodder, tailStrictFodder, tailStrict }

/-- The two operands of an extended object. -/
def Form.applyBraceRecord : Record (α × α) where
  name := "ApplyBrace"
  types := _
  fields := .required "left" expr <| .required "right" expr .nil
  toRow | (left, right) => (left, right, ())
  ofRow | (left, right, ()) => (left, right)

/-- The fields of an array. -/
def ArrayLiteral.record : Record (ArrayLiteral α) where
  name := "Array"
  types := _
  fields :=
    .items "elements" (Element.record expr).codec <|
    .switch "trailing_comma" <|
    .fodder "close_fodder" .nil
  toRow a := (a.elements, a.trailingComma, a.closeFodder, ())
  ofRow | (elements, trailingComma, closeFodder, ()) => { elements, trailingComma, closeFodder }

/-- The fields of an array comprehension. -/
def ArrayComp.record : Record (ArrayComp α) where
  name := "ArrayComp"
  types := _
  fields :=
    .required "body" expr <|
    .fodder "trailing_comma_fodder" <|
    .switch "trailing_comma" <|
    .required "spec" (Clauses.codec expr) <|
    .fodder "close_fodder" .nil
  toRow a := (a.body, a.commaFodder, a.trailingComma, a.clauses, a.closeFodder, ())
  ofRow
    | (body, commaFodder, trailingComma, clauses, closeFodder, ()) =>
      { body, commaFodder, trailingComma, clauses, closeFodder }

/-- The fields of an assertion. -/
def Assert.record : Record (Assert α) where
  name := "Assert"
  types := _
  fields :=
    .required "cond" expr <|
    .fodder "colon_fodder" <|
    .optional "message" expr <|
    .fodder "semicolon_fodder" <|
    .required "rest" expr .nil
  toRow a := (a.condition, a.colonFodder, a.message, a.semicolonFodder, a.rest, ())
  ofRow
    | (condition, colonFodder, message, semicolonFodder, rest, ()) =>
      { condition, colonFodder, message, semicolonFodder, rest }

/-- The fields of a binary operation. -/
def Binary.record : Record (Binary α) where
  name := "Binary"
  types := _
  fields :=
    .required "left" expr <|
    .fodder "op_fodder" <|
    .required "op" (.word BinaryOp.all BinaryOp.tag) <|
    .required "right" expr .nil
  toRow b := (b.left, b.opFodder, b.op, b.right, ())
  ofRow | (left, opFodder, op, right, ()) => { left, opFodder, op, right }

/-- The fields of a conditional. -/
def Conditional.record : Record (Conditional α) where
  name := "Conditional"
  types := _
  fields :=
    .required "cond" expr <|
    .fodder "then_fodder" <|
    .required "branch_true" expr <|
    .fodder "else_fodder" <|
    .optional "branch_false" expr .nil
  toRow c := (c.condition, c.thenFodder, c.yes, c.elseFodder, c.no, ())
  ofRow
    | (condition, thenFodder, yes, elseFodder, no, ()) =>
      { condition, thenFodder, yes, elseFodder, no }

/-- A form that holds one expression under a name. -/
def Form.singleRecord (name field : String) : Record α where
  name := name
  types := _
  fields := .required field expr .nil
  toRow e := (e, ())
  ofRow | (e, ()) => e

/-- The parameters and the body of a function. -/
def Form.functionRecord : Record (Parameters α × α) where
  name := "Function"
  types := _
  fields :=
    .withDefault "params" (Parameters.record expr).codec .empty <|
    .required "body" expr .nil
  toRow | (params, body) => (params, body, ())
  ofRow | (params, body, ()) => (params, body)

/-- The fields of an index. -/
def Index.record : Record (Index α) where
  name := "Index"
  types := _
  fields :=
    .required "target" expr <|
    .fodder "left_bracket_fodder" <|
    .optional "index" expr <|
    .fodder "right_bracket_fodder" <|
    .optional "id" .string .nil
  toRow i := (i.target, i.leftFodder, i.index, i.rightFodder, i.id, ())
  ofRow
    | (target, leftFodder, index, rightFodder, id, ()) =>
      { target, leftFodder, index, rightFodder, id }

/-- The fields of a slice. -/
def Slice.record : Record (Slice α) where
  name := "Slice"
  types := _
  fields :=
    .required "target" expr <|
    .fodder "left_bracket_fodder" <|
    .optional "begin_index" expr <|
    .fodder "end_colon_fodder" <|
    .optional "end_index" expr <|
    .fodder "step_colon_fodder" <|
    .optional "step" expr <|
    .fodder "right_bracket_fodder" .nil
  toRow s := (s.target, s.leftFodder, s.start, s.stopFodder, s.stop, s.stepFodder, s.step,
    s.rightFodder, ())
  ofRow
    | (target, leftFodder, start, stopFodder, stop, stepFodder, step, rightFodder, ()) =>
      { target, leftFodder, start, stopFodder, stop, stepFodder, step, rightFodder }

/-- The fields of a test for a field of `super`. -/
def InSuper.record : Record (InSuper α) where
  name := "InSuper"
  types := _
  fields := .required "index" expr <| .fodder "in_fodder" <| .fodder "super_fodder" .nil
  toRow i := (i.index, i.inFodder, i.superFodder, ())
  ofRow | (index, inFodder, superFodder, ()) => { index, inFodder, superFodder }

/-- The bindings and the body of a local expression. -/
def Form.localsRecord : Record (List (Binding α) × α) where
  name := "Local"
  types := _
  fields :=
    .required "binds" (Binding.record expr).codec.list <|
    .required "body" expr .nil
  toRow | (binds, body) => (binds, body, ())
  ofRow | (binds, body, ()) => (binds, body)

/-- The fields of a string literal. -/
def StringLiteral.record : Record StringLiteral where
  name := "LiteralString"
  types := _
  fields :=
    .required "value" .string <|
    .required "kind" (.word StringKind.all StringKind.tag) <|
    .withDefault "block_indent" .string "" <|
    .withDefault "block_term_indent" .string "" .nil
  toRow s := (s.value, s.kind, s.blockIndent, s.termIndent, ())
  ofRow | (value, kind, blockIndent, termIndent, ()) => { value, kind, blockIndent, termIndent }

/-- The fields of an object as it is written. -/
def ObjectLiteral.record : Record (ObjectLiteral α) where
  name := "Object"
  types := _
  fields :=
    .items "fields" (Member.record expr).codec <|
    .switch "trailing_comma" <|
    .fodder "close_fodder" .nil
  toRow o := (o.members, o.trailingComma, o.closeFodder, ())
  ofRow | (members, trailingComma, closeFodder, ()) => { members, trailingComma, closeFodder }

/-- The fields of a lowered object. -/
def LoweredObject.record : Record (LoweredObject α) where
  name := "DesugaredObject"
  types := _
  fields :=
    .items "asserts" expr <|
    .items "fields" (LoweredField.record expr).codec <|
    .items "locals" (Binding.record expr).codec .nil
  toRow o := (o.asserts, o.fields, o.locals, ())
  ofRow | (asserts, fields, locals, ()) => { asserts, fields, locals }

/-- The fields of an object comprehension. -/
def ObjectComp.record : Record (ObjectComp α) where
  name := "ObjectComp"
  types := _
  fields :=
    .items "fields" (Member.record expr).codec <|
    .switch "trailing_comma" <|
    .required "spec" (Clauses.codec expr) <|
    .fodder "close_fodder" .nil
  toRow o := (o.members, o.trailingComma, o.clauses, o.closeFodder, ())
  ofRow
    | (members, trailingComma, clauses, closeFodder, ()) =>
      { members, trailingComma, clauses, closeFodder }

/-- The inside of parentheses and the fodder before the closing one. -/
def Form.parensRecord : Record (α × Fodder) where
  name := "Parens"
  types := _
  fields := .required "inner" expr <| .fodder "close_fodder" .nil
  toRow | (inner, closeFodder) => (inner, closeFodder, ())
  ofRow | (inner, closeFodder, ()) => (inner, closeFodder)

/-- The fields of an index of `super`. -/
def SuperIndex.record : Record (SuperIndex α) where
  name := "SuperIndex"
  types := _
  fields :=
    .fodder "dot_fodder" <|
    .optional "index" expr <|
    .fodder "id_fodder" <|
    .optional "id" .string .nil
  toRow s := (s.dotFodder, s.index, s.idFodder, s.id, ())
  ofRow | (dotFodder, index, idFodder, id, ()) => { dotFodder, index, idFodder, id }

/-- The operator and the operand of a unary operation. -/
def Form.unaryRecord : Record (UnaryOp × α) where
  name := "Unary"
  types := _
  fields :=
    .required "op" (.word UnaryOp.all UnaryOp.tag) <|
    .required "expr" expr .nil
  toRow | (op, operand) => (op, operand, ())
  ofRow | (op, operand, ()) => (op, operand)

/-- A variant whose payload is a record. -/
def Record.variant {ρ σ : Type} (r : Record ρ) (tag : String) (make : ρ → σ) : Variant σ where
  tag := tag
  payload := .present fun v => make <$> r.codec.read v

/-- The forms, each with its tag and the way its payload is read. -/
def Form.variants : List (Variant (Form α)) :=
  [ (Apply.record expr).variant "apply" .apply,
    (Form.applyBraceRecord expr).variant "apply_brace" fun (left, right) => .applyBrace left right,
    (ArrayLiteral.record expr).variant "array" .array,
    (ArrayComp.record expr).variant "array_comp" .arrayComp,
    (Assert.record expr).variant "assert" .assert,
    (Binary.record expr).variant "binary" .binary,
    (Conditional.record expr).variant "conditional" .conditional,
    ⟨"dollar", .absent .dollar⟩,
    (Form.singleRecord expr "ErrorExpr" "expr").variant "error" .error,
    (Form.functionRecord expr).variant "function" fun (params, body) => .function params body,
    (Form.singleRecord expr "Import" "file").variant "import" .importCode,
    (Form.singleRecord expr "Import" "file").variant "import_str" .importText,
    (Index.record expr).variant "index" .index,
    (Slice.record expr).variant "slice" .slice,
    (InSuper.record expr).variant "in_super" .inSuper,
    (Form.localsRecord expr).variant "local" fun (binds, body) => .locals binds body,
    (Form.singleRecord .boolean "LiteralBoolean" "value").variant "literal_boolean" .boolean,
    ⟨"literal_null", .absent .null⟩,
    (Form.singleRecord .string "LiteralNumber" "original_string").variant "literal_number" .number,
    StringLiteral.record.variant "literal_string" .string,
    (ObjectLiteral.record expr).variant "object" .object,
    (LoweredObject.record expr).variant "desugared_object" .loweredObject,
    (ObjectComp.record expr).variant "object_comp" .objectComp,
    (Form.parensRecord expr).variant "parens" fun (inner, fodder) => .parens inner fodder,
    ⟨"self_ref", .absent .self⟩,
    (SuperIndex.record expr).variant "super_index" .superIndex,
    (Form.unaryRecord expr).variant "unary" fun (op, operand) => .unary op operand,
    (Form.singleRecord .string "Var" "id").variant "var" .var ]

/-- Writes a form as its tag with its payload. -/
def Form.write : Form α → Value
  | .apply a => Variant.writeTagged "apply" ((Apply.record expr).codec.write a)
  | .applyBrace left right =>
    Variant.writeTagged "apply_brace" ((Form.applyBraceRecord expr).codec.write (left, right))
  | .array a => Variant.writeTagged "array" ((ArrayLiteral.record expr).codec.write a)
  | .arrayComp a => Variant.writeTagged "array_comp" ((ArrayComp.record expr).codec.write a)
  | .assert a => Variant.writeTagged "assert" ((Assert.record expr).codec.write a)
  | .binary b => Variant.writeTagged "binary" ((Binary.record expr).codec.write b)
  | .conditional c => Variant.writeTagged "conditional" ((Conditional.record expr).codec.write c)
  | .dollar => .ofString "dollar"
  | .error message =>
    Variant.writeTagged "error" ((Form.singleRecord expr "ErrorExpr" "expr").codec.write message)
  | .function params body =>
    Variant.writeTagged "function" ((Form.functionRecord expr).codec.write (params, body))
  | .importCode file =>
    Variant.writeTagged "import" ((Form.singleRecord expr "Import" "file").codec.write file)
  | .importText file =>
    Variant.writeTagged "import_str" ((Form.singleRecord expr "Import" "file").codec.write file)
  | .index i => Variant.writeTagged "index" ((Index.record expr).codec.write i)
  | .slice s => Variant.writeTagged "slice" ((Slice.record expr).codec.write s)
  | .inSuper i => Variant.writeTagged "in_super" ((InSuper.record expr).codec.write i)
  | .locals binds body =>
    Variant.writeTagged "local" ((Form.localsRecord expr).codec.write (binds, body))
  | .boolean value =>
    Variant.writeTagged "literal_boolean"
      ((Form.singleRecord .boolean "LiteralBoolean" "value").codec.write value)
  | .null => .ofString "literal_null"
  | .number text =>
    Variant.writeTagged "literal_number"
      ((Form.singleRecord .string "LiteralNumber" "original_string").codec.write text)
  | .string s => Variant.writeTagged "literal_string" (StringLiteral.record.codec.write s)
  | .object o => Variant.writeTagged "object" ((ObjectLiteral.record expr).codec.write o)
  | .loweredObject o =>
    Variant.writeTagged "desugared_object" ((LoweredObject.record expr).codec.write o)
  | .objectComp o => Variant.writeTagged "object_comp" ((ObjectComp.record expr).codec.write o)
  | .parens inner closeFodder =>
    Variant.writeTagged "parens" ((Form.parensRecord expr).codec.write (inner, closeFodder))
  | .self => .ofString "self_ref"
  | .superIndex s => Variant.writeTagged "super_index" ((SuperIndex.record expr).codec.write s)
  | .unary op operand =>
    Variant.writeTagged "unary" ((Form.unaryRecord expr).codec.write (op, operand))
  | .var name =>
    Variant.writeTagged "var" ((Form.singleRecord .string "Var" "id").codec.write name)

/-- Reads and writes a form, given the codec of the expressions in it. -/
def Form.codec : Codec (Form α) where
  read := Variant.read (Form.variants expr)
  write := Form.write expr

end Parts

/-! ## Expressions and trees -/

/-- An expression, given how its subexpressions are read and written. -/
def Expr.record (sub : Codec Expr) : Record Expr where
  name := "Node"
  types := _
  fields :=
    .location "loc" <|
    .fodder "fodder" <|
    .required "kind" (Form.codec sub) .nil
  toRow e := (e.location, e.fodder, e.form, ())
  ofRow | (location, fodder, form, ()) => { location, fodder, form }

/-- Expressions of at most `height` levels. -/
def Expr.codecUpTo : (height : Nat) → Codec Expr
  | 0 => { read := fun _ => .error (.fault .malformed), write := fun _ => .null }
  | height + 1 => (Expr.record (Expr.codecUpTo height)).codec

/-- Expressions of any height. A value holds no higher expression than its nesting. -/
def Expr.codec : Codec Expr where
  read v := (Expr.codecUpTo (v.nesting + 1)).read v
  write e := (Expr.codecUpTo e.height).write e

/-- The fields of a tree. -/
def Tree.record : Record Tree where
  name := "Tree"
  types := _
  fields :=
    .required "shape" (.word Shape.all Shape.tag) <|
    .required "root" Expr.codec <|
    .fodder "final_fodder" .nil
  toRow t := (t.shape, t.root, t.finalFodder, ())
  ofRow | (shape, root, finalFodder, ()) => { shape, root, finalFodder }

/-- Reads and writes a tree. -/
def Tree.codec : Codec Tree := Tree.record.codec

end JsonnetTree
