/-!
# Operators and other closed sets of words

Every set lists its members in the order in which a reader is told of them, and gives
each member its name in a document (`tag`) and its spelling in source text (`symbol`).
-/

namespace JsonnetTree

/-- The binary operators. -/
inductive BinaryOp where
  | mult | div | percent | plus | minus | shiftL | shiftR
  | greater | greaterEq | less | lessEq | isIn
  | manifestEqual | manifestUnequal
  | bitwiseAnd | bitwiseXor | bitwiseOr | and | or
  deriving DecidableEq, Inhabited, Repr

namespace BinaryOp

/-- All binary operators. -/
def all : List BinaryOp :=
  [.mult, .div, .percent, .plus, .minus, .shiftL, .shiftR, .greater, .greaterEq, .less, .lessEq,
    .isIn, .manifestEqual, .manifestUnequal, .bitwiseAnd, .bitwiseXor, .bitwiseOr, .and, .or]

/-- The name of a binary operator in a document. -/
def tag : BinaryOp → String
  | .mult => "mult"
  | .div => "div"
  | .percent => "percent"
  | .plus => "plus"
  | .minus => "minus"
  | .shiftL => "shift_l"
  | .shiftR => "shift_r"
  | .greater => "greater"
  | .greaterEq => "greater_eq"
  | .less => "less"
  | .lessEq => "less_eq"
  | .isIn => "in"
  | .manifestEqual => "manifest_equal"
  | .manifestUnequal => "manifest_unequal"
  | .bitwiseAnd => "bitwise_and"
  | .bitwiseXor => "bitwise_xor"
  | .bitwiseOr => "bitwise_or"
  | .and => "and"
  | .or => "or"

/-- The spelling of a binary operator in source text. -/
def symbol : BinaryOp → String
  | .mult => "*"
  | .div => "/"
  | .percent => "%"
  | .plus => "+"
  | .minus => "-"
  | .shiftL => "<<"
  | .shiftR => ">>"
  | .greater => ">"
  | .greaterEq => ">="
  | .less => "<"
  | .lessEq => "<="
  | .isIn => "in"
  | .manifestEqual => "=="
  | .manifestUnequal => "!="
  | .bitwiseAnd => "&"
  | .bitwiseXor => "^"
  | .bitwiseOr => "|"
  | .and => "&&"
  | .or => "||"

end BinaryOp

/-- The unary operators. -/
inductive UnaryOp where
  | not | bitwiseNot | plus | minus
  deriving DecidableEq, Inhabited, Repr

namespace UnaryOp

/-- All unary operators. -/
def all : List UnaryOp := [.not, .bitwiseNot, .plus, .minus]

/-- The name of a unary operator in a document. -/
def tag : UnaryOp → String
  | .not => "not"
  | .bitwiseNot => "bitwise_not"
  | .plus => "plus"
  | .minus => "minus"

/-- The spelling of a unary operator in source text. -/
def symbol : UnaryOp → String
  | .not => "!"
  | .bitwiseNot => "~"
  | .plus => "+"
  | .minus => "-"

end UnaryOp

/-- How a field takes part in the output of its object. -/
inductive Visibility where
  | inherit | hidden | visible
  deriving DecidableEq, Inhabited, Repr

namespace Visibility

/-- All visibilities. -/
def all : List Visibility := [.inherit, .hidden, .visible]

/-- The name of a visibility in a document. -/
def tag : Visibility → String
  | .inherit => "inherit"
  | .hidden => "hidden"
  | .visible => "visible"

/-- The spelling of a visibility in source text. -/
def symbol : Visibility → String
  | .inherit => ":"
  | .hidden => "::"
  | .visible => ":::"

end Visibility

/-- The ways to write a string literal. -/
inductive StringKind where
  | single | double | block | verbatimSingle | verbatimDouble
  deriving DecidableEq, Inhabited, Repr

namespace StringKind

/-- All kinds of string literal. -/
def all : List StringKind := [.single, .double, .block, .verbatimSingle, .verbatimDouble]

/-- The name of a kind of string literal in a document. -/
def tag : StringKind → String
  | .single => "single"
  | .double => "double"
  | .block => "block"
  | .verbatimSingle => "verbatim_single"
  | .verbatimDouble => "verbatim_double"

end StringKind

/-- What a member of an object literal is. -/
inductive MemberKind where
  /-- An assertion. -/
  | assert
  /-- A field named by an identifier. -/
  | fieldId
  /-- A field named by a computed expression. -/
  | fieldExpr
  /-- A field named by a string literal. -/
  | fieldStr
  /-- A binding local to the object. -/
  | localBind
  deriving DecidableEq, Inhabited, Repr

namespace MemberKind

/-- All kinds of member. -/
def all : List MemberKind := [.assert, .fieldId, .fieldExpr, .fieldStr, .localBind]

/-- The name of a kind of member in a document. -/
def tag : MemberKind → String
  | .assert => "assert"
  | .fieldId => "field_id"
  | .fieldExpr => "field_expr"
  | .fieldStr => "field_str"
  | .localBind => "local"

end MemberKind

end JsonnetTree
