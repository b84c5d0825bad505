import JsonnetTree.Expr.Form

/-!
# Printing string literals

Quoted strings are kept as they are written, with their escapes. Verbatim strings write their
delimiter twice, and text blocks indent every line that is not empty and drop carriage
returns.
-/

namespace JsonnetTree

/-- The lines of a text block after the start of its first line. A line is indented when the
character after its line break is there and is no line break. -/
def blockChars (indent : List Char) : List Char → List Char
  | [] => []
  | '\r' :: rest => blockChars indent rest
  | '\n' :: rest =>
    match rest with
    | [] => ['\n']
    | '\n' :: _ => '\n' :: blockChars indent rest
    | _ :: _ => '\n' :: indent ++ blockChars indent rest
  | c :: rest => c :: blockChars indent rest

/-- Writes a delimiter twice wherever it stands in a text. -/
def doubled (delimiter : Char) (text : List Char) : List Char :=
  text.flatMap fun c => if c = delimiter then [c, c] else [c]

/-- The mark around a text block. -/
def blockMark : List Char := ['|', '|', '|']

/-- The text of a string literal. -/
def StringLiteral.chars (s : StringLiteral) : List Char :=
  let value := s.value.toList
  match s.kind with
  | .double => '"' :: value ++ ['"']
  | .single => '\'' :: value ++ ['\'']
  | .verbatimDouble => '@' :: '"' :: doubled '"' value ++ ['"']
  | .verbatimSingle => '@' :: '\'' :: doubled '\'' value ++ ['\'']
  | .block =>
    let indent := s.blockIndent.toList
    let start := if value.head? = some '\n' then [] else indent
    blockMark ++ '\n' :: start ++ blockChars indent value ++ s.termIndent.toList ++ blockMark

end JsonnetTree
