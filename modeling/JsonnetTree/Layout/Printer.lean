import JsonnetTree.Depth
import JsonnetTree.Expr.Recursion
import JsonnetTree.Layout.Fill
import JsonnetTree.Layout.Literal

/-!
# Printing expressions

Every expression is printed with its fodder in front. A form that starts with a subexpression
leaves the fodder to that subexpression. Lowered objects hold no fodder and are laid out in
one way: local bindings, then fields, then assertions.
-/

namespace JsonnetTree

/-- Where the printer puts a space inside brackets. -/
structure LayoutOptions where
  padArrays : Bool := false
  padObjects : Bool := true
  deriving DecidableEq, Inhabited, Repr

/-- A subexpression and how it is printed, given whether the text before it is crowded. -/
abbrev Operand := Expr × (Bool → List Piece)

/-- Prints a subexpression if it is there. -/
def printOption (o : Option Operand) (crowded : Bool) : List Piece :=
  match o with
  | some o => o.2 crowded
  | none => []

/-- Prints a list with commas between its items, and tells each whether it is the first. -/
def printList {α : Type} (print : (first : Bool) → α → List Piece) :
    (first : Bool) → List α → List Piece
  | _, [] => []
  | first, a :: rest =>
    (if first then [] else [.mark ","]) ++ print first a ++ printList print false rest

/-- A comma that may follow the last item of a list. -/
def printTrailing (comma : Bool) : List Piece :=
  if comma then [.mark ","] else []

/-- Prints an element of an array or an argument; the first one is crowded if `pad` is set. -/
def Element.pieces (pad first : Bool) (e : Element Operand) : List Piece :=
  e.expr.2 (!first || pad) ++ fill e.commaFodder false false

/-- Prints an argument passed by name. -/
def NamedArgument.pieces (first : Bool) (a : NamedArgument Operand) : List Piece :=
  fill a.nameFodder (!first) true ++ [.word a.name] ++ fill a.eqFodder false false ++
    [.mark "="] ++ a.value.2 false ++ fill a.commaFodder false false

/-- Prints arguments, those passed by place first. -/
def Arguments.pieces (a : Arguments Operand) : List Piece :=
  printList (Element.pieces false) true a.positional ++
    printList NamedArgument.pieces a.positional.isEmpty a.named

/-- Prints a parameter. -/
def Parameter.pieces (first : Bool) (p : Parameter Operand) : List Piece :=
  fill p.nameFodder (!first) true ++ [.word p.name] ++
    (match p.fallback with
      | some value => fill p.eqFodder false false ++ [.mark "="] ++ value.2 false
      | none => []) ++
    fill p.commaFodder false false

/-- Prints a parameter list in its parentheses. -/
def Parameters.pieces (ps : Parameters Operand) : List Piece :=
  fill ps.leftFodder false false ++ [.mark "("] ++ printList Parameter.pieces true ps.items ++
    printTrailing ps.trailingComma ++ fill ps.rightFodder false false ++ [.mark ")"]

/-- Prints a parameter list if it is there. -/
def Parameters.pieces? (ps : Option (Parameters Operand)) : List Piece :=
  match ps with
  | some ps => ps.pieces
  | none => []

/-- Prints a binding. -/
def Binding.pieces (_first : Bool) (b : Binding Operand) : List Piece :=
  fill b.varFodder true true ++ [.word b.name] ++ Parameters.pieces? b.params ++
    fill b.eqFodder true true ++ [.mark "="] ++ b.body.2 true ++ fill b.closeFodder false false

/-- Prints a condition of a comprehension. -/
def Condition.pieces (c : Condition Operand) : List Piece :=
  fill c.ifFodder true true ++ [.word "if"] ++ c.expr.2 true

/-- Prints a comprehension clause. -/
def Clause.pieces (c : Clause Operand) : List Piece :=
  fill c.forFodder true true ++ [.word "for"] ++ fill c.varFodder true true ++
    [.word c.varName] ++ fill c.inFodder true true ++ [.word "in"] ++ c.expr.2 true ++
    c.conditions.flatMap Condition.pieces

/-- Prints the clauses of a comprehension, the outer ones first. -/
def Clauses.pieces : Clauses Operand → List Piece
  | .outermost clause => clause.pieces
  | .inside outer clause => outer.pieces ++ clause.pieces

namespace Member

variable (m : Member Operand)

/-- The identifier of a member, if it has one. -/
def idPieces : List Piece :=
  (m.id.map Piece.word).toList

/-- The parameters, the operator and the value of a named field. -/
def valuePieces : List Piece :=
  Parameters.pieces? m.method ++ fill m.opFodder false false ++
    (if m.superSugar then [.mark "+"] else []) ++ [.mark m.hide.symbol] ++
    printOption m.expr2 true

/-- Prints a member; the first one is crowded if `pad` is set. -/
def pieces (pad first : Bool) (m : Member Operand) : List Piece :=
  let crowded := !first || pad
  let body :=
    match m.kind with
    | .localBind =>
      fill m.fodder1 crowded true ++ [.word "local"] ++ fill m.fodder2 true true ++ m.idPieces ++
        Parameters.pieces? m.method ++ fill m.opFodder true true ++ [.mark "="] ++
        printOption m.expr2 true
    | .fieldId => fill m.fodder1 crowded true ++ m.idPieces ++ m.valuePieces
    | .fieldStr => printOption m.expr1 crowded ++ m.valuePieces
    | .fieldExpr =>
      fill m.fodder1 crowded true ++ [.mark "["] ++ printOption m.expr1 false ++
        fill m.fodder2 false false ++ [.mark "]"] ++ m.valuePieces
    | .assert =>
      fill m.fodder1 crowded true ++ [.word "assert"] ++ printOption m.expr2 true ++
        (match m.expr3 with
          | some message => fill m.opFodder true true ++ [.mark ":"] ++ message.2 true
          | none => [])
  body ++ fill m.commaFodder false false

end Member

namespace LoweredObject

/-- Prints a local binding of a lowered object. -/
def localPieces (pad first : Bool) (b : Binding Operand) : List Piece :=
  fill [] (!first || pad) true ++ [.word "local", .spaces 1, .word b.name] ++
    Parameters.pieces? b.params ++ [.spaces 1, .mark "="] ++ b.body.2 true

/-- Prints a field of a lowered object. A name that is no string literal is put in brackets. -/
def fieldPieces (pad first : Bool) (d : LoweredField Operand) : List Piece :=
  let crowded := !first || pad
  (match d.name.1.form with
    | .string _ => d.name.2 crowded
    | _ => fill [] crowded true ++ [.mark "["] ++ d.name.2 false ++ [.mark "]"]) ++
    (if d.plusSuper then [.mark "+"] else []) ++ [.mark d.hide.symbol] ++ d.body.2 true

/-- Prints an assertion of a lowered object. -/
def assertPieces (pad first : Bool) (o : Operand) : List Piece :=
  fill [] (!first || pad) true ++ [.word "assert"] ++ o.2 true

/-- Prints a lowered object. -/
def pieces (pad : Bool) (o : LoweredObject Operand) : List Piece :=
  let noLocals := o.locals.isEmpty
  let noFields := noLocals && o.fields.isEmpty
  let nothing := noFields && o.asserts.isEmpty
  [.mark "\x7b"] ++ printList (localPieces pad) true o.locals ++
    printList (fieldPieces pad) noLocals o.fields ++
    printList (assertPieces pad) noFields o.asserts ++ fill [] (!nothing) pad ++
    [.mark "\x7d"]

end LoweredObject

/-- A binary operator as a piece of text: one of them is a keyword. -/
def BinaryOp.piece (op : BinaryOp) : Piece :=
  match op with
  | .isIn => .word op.symbol
  | _ => .mark op.symbol

/-- Access by name after a dot, or by an expression in brackets. -/
def printAccess (id : Option String) (index : Option Operand) (fodder : Fodder) : List Piece :=
  match id with
  | some id => [.mark "."] ++ fill fodder false false ++ [.word id]
  | none => [.mark "["] ++ printOption index false ++ fill fodder false false ++ [.mark "]"]

/-- Prints a form. `crowded` reaches the subexpression that the form starts with. -/
def Form.pieces (options : LayoutOptions) (crowded : Bool) : Form Operand → List Piece
  | .apply a =>
    a.target.2 crowded ++ fill a.leftFodder false false ++ [.mark "("] ++ a.arguments.pieces ++
      printTrailing a.trailingComma ++ fill a.rightFodder false false ++ [.mark ")"] ++
      (if a.tailStrict then fill a.tailStrictFodder true true ++ [.word "tailstrict"] else [])
  | .applyBrace left right => left.2 crowded ++ right.2 true
  | .array a =>
    [.mark "["] ++ printList (Element.pieces options.padArrays) true a.elements ++
      printTrailing a.trailingComma ++
      fill a.closeFodder (!a.elements.isEmpty) options.padArrays ++ [.mark "]"]
  | .arrayComp a =>
    [.mark "["] ++ a.body.2 options.padArrays ++ fill a.commaFodder false false ++
      printTrailing a.trailingComma ++ a.clauses.pieces ++
      fill a.closeFodder true options.padArrays ++ [.mark "]"]
  | .assert a =>
    [.word "assert"] ++ a.condition.2 true ++
      (match a.message with
        | some message => fill a.colonFodder true true ++ [.mark ":"] ++ message.2 true
        | none => []) ++
      fill a.semicolonFodder false false ++ [.mark ";"] ++ a.rest.2 true
  | .binary b =>
    b.left.2 crowded ++ fill b.opFodder true true ++ [b.op.piece] ++ b.right.2 true
  | .conditional c =>
    [.word "if"] ++ c.condition.2 true ++ fill c.thenFodder true true ++ [.word "then"] ++
      c.yes.2 true ++
      (match c.no with
        | some no => fill c.elseFodder true true ++ [.word "else"] ++ no.2 true
        | none => [])
  | .dollar => [.mark "$"]
  | .error message => [.word "error"] ++ message.2 true
  | .function params body => [.word "function"] ++ params.pieces ++ body.2 true
  | .importCode file => [.word "import"] ++ file.2 true
  | .importText file => [.word "importstr"] ++ file.2 true
  | .index i =>
    i.target.2 crowded ++ fill i.leftFodder false false ++ printAccess i.id i.index i.rightFodder
  | .slice s =>
    s.target.2 crowded ++ fill s.leftFodder false false ++ [.mark "["] ++
      printOption s.start false ++ fill s.stopFodder false false ++ [.mark ":"] ++
      printOption s.stop false ++
      (if s.step.isSome || !s.stepFodder.isEmpty then
        fill s.stepFodder false false ++ [.mark ":"] ++ printOption s.step false
      else []) ++
      fill s.rightFodder false false ++ [.mark "]"]
  | .inSuper i =>
    i.index.2 true ++ fill i.inFodder true true ++ [.word "in"] ++ fill i.superFodder true true ++
      [.word "super"]
  | .locals [] _ => [.word "local", .noBinds]
  | .locals binds body =>
    [.word "local"] ++ printList Binding.pieces true binds ++ [.mark ";"] ++ body.2 true
  | .boolean value => [.word (if value then "true" else "false")]
  | .null => [.word "null"]
  | .number text => [.word text]
  | .string s => [.literal (String.ofList s.chars)]
  | .object o =>
    [.mark "\x7b"] ++ printList (Member.pieces options.padObjects) true o.members ++
      printTrailing o.trailingComma ++
      fill o.closeFodder (!o.members.isEmpty) options.padObjects ++ [.mark "\x7d"]
  | .loweredObject o => o.pieces options.padObjects
  | .objectComp o =>
    [.mark "\x7b"] ++ printList (Member.pieces options.padObjects) true o.members ++
      printTrailing o.trailingComma ++ o.clauses.pieces ++
      fill o.closeFodder true options.padObjects ++ [.mark "\x7d"]
  | .parens inner closeFodder =>
    [.mark "("] ++ inner.2 false ++ fill closeFodder false false ++ [.mark ")"]
  | .self => [.word "self"]
  | .superIndex s =>
    [.word "super"] ++ fill s.dotFodder false false ++ printAccess s.id s.index s.idFodder
  | .unary op operand => [.mark op.symbol] ++ operand.2 false
  | .var name => [.word name]

/-- The pieces of an expression, given whether the text before it is crowded. -/
def Expr.pieces (options : LayoutOptions) : Expr → (crowded : Bool) → List Piece :=
  Expr.para fun e form crowded =>
    (if e.form.leftmost?.isNone then fill e.fodder crowded true else []) ++
      form.pieces options crowded

/-- The pieces of a tree, with the line break at its end. -/
def Tree.pieces (options : LayoutOptions) (t : Tree) : List Piece :=
  t.root.pieces options false ++ fill t.finalFodder true false ++ [.newlines 1]

/-- Why a tree cannot be printed. -/
inductive PrintError where
  | walk (e : WalkError)
  | halted (halt : Halt)
  deriving DecidableEq, Inhabited, Repr

/-- Prints a tree that is no deeper than `limit`. -/
def Tree.print (options : LayoutOptions) (limit : Nat) (t : Tree) : Except PrintError String := do
  (t.root.checkDepth limit).mapError .walk
  let pieces := t.pieces options
  match Piece.halted? pieces with
  | some halt => .error (.halted halt)
  | none => .ok (Piece.render pieces)

end JsonnetTree
