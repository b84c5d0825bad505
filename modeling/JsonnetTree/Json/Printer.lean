import JsonnetTree.Json.Value

/-!
# Writing JSON

A value is written without blanks (`compact`) or with one member or item to a line and two
spaces for each level (`pretty`). Strings escape the quote, the backslash and the control
characters, and nothing else.
-/

namespace JsonnetTree.Json

/-- A hexadecimal digit. -/
def hexDigit (n : Nat) : Char :=
  if n < 10 then Char.ofNat ('0'.toNat + n) else Char.ofNat ('a'.toNat + n - 10)

/-- How a character is written inside a string. -/
def escape (c : Char) : List Char :=
  if c = '"' then ['\\', '"']
  else if c = '\\' then ['\\', '\\']
  else if c = '\x08' then ['\\', 'b']
  else if c = '\x0c' then ['\\', 'f']
  else if c = '\n' then ['\\', 'n']
  else if c = '\r' then ['\\', 'r']
  else if c = '\t' then ['\\', 't']
  else if c.toNat < 0x20 then
    ['\\', 'u', '0', '0', hexDigit (c.toNat / 16), hexDigit (c.toNat % 16)]
  else [c]

/-- A quoted string. -/
def quote (s : String) : List Char :=
  '"' :: s.toList.flatMap escape ++ ['"']

/-- The text of a string of a document; unpaired surrogates have none. -/
def Text.chars : Text → List Char
  | .plain s => quote s
  | .unpaired => quote ""

namespace Value

/-! The text of a value is put in front of the text that follows it, so that no part of it is
copied again for each level of the value. -/

mutual

/-- The text of a value, without blanks, in front of `rest`. What is missing has no text. -/
def compactOnto (rest : List Char) : Value → List Char
  | .null => ['n', 'u', 'l', 'l'] ++ rest
  | .bool true => ['t', 'r', 'u', 'e'] ++ rest
  | .bool false => ['f', 'a', 'l', 's', 'e'] ++ rest
  | .number n => n.chars ++ rest
  | .string t => t.chars ++ rest
  | .array items _ => '[' :: compactItems (']' :: rest) items
  | .object members _ => '\x7b' :: compactMembers ('\x7d' :: rest) members
  | .missing _ | .uncoloned _ => rest

/-- Items with commas between them. -/
def compactItems (rest : List Char) : List Value → List Char
  | [] => rest
  | [v] => compactOnto rest v
  | v :: more => compactOnto (',' :: compactItems rest more) v

/-- Members with commas between them. -/
def compactMembers (rest : List Char) : List (Text × Value) → List Char
  | [] => rest
  | [(key, v)] => key.chars ++ ':' :: compactOnto rest v
  | (key, v) :: more => key.chars ++ ':' :: compactOnto (',' :: compactMembers rest more) v

end

/-- The text of a value, without blanks. -/
def compact (v : Value) : List Char := compactOnto [] v

/-- The start of a line, two spaces for each level. -/
def newline (level : Nat) : List Char :=
  '\n' :: List.replicate (2 * level) ' '

mutual

/-- The text of a value on a level, with a line for each item and member, in front of `rest`. -/
def prettyOnto (rest : List Char) (level : Nat) : Value → List Char
  | .null => ['n', 'u', 'l', 'l'] ++ rest
  | .bool true => ['t', 'r', 'u', 'e'] ++ rest
  | .bool false => ['f', 'a', 'l', 's', 'e'] ++ rest
  | .number n => n.chars ++ rest
  | .string t => t.chars ++ rest
  | .array [] _ => '[' :: ']' :: rest
  | .array items _ => '[' :: prettyItems (newline level ++ ']' :: rest) (level + 1) items
  | .object [] _ => '\x7b' :: '\x7d' :: rest
  | .object members _ =>
    '\x7b' :: prettyMembers (newline level ++ '\x7d' :: rest) (level + 1) members
  | .missing _ | .uncoloned _ => rest

/-- Items, each on a line of its own, with commas between them. -/
def prettyItems (rest : List Char) (level : Nat) : List Value → List Char
  | [] => rest
  | [v] => newline level ++ prettyOnto rest level v
  | v :: more => newline level ++ prettyOnto (',' :: prettyItems rest level more) level v

/-- Members, each on a line of its own, with commas between them. -/
def prettyMembers (rest : List Char) (level : Nat) : List (Text × Value) → List Char
  | [] => rest
  | [(key, v)] => newline level ++ key.chars ++ ':' :: ' ' :: prettyOnto rest level v
  | (key, v) :: more =>
    newline level ++ key.chars ++
      ':' :: ' ' :: prettyOnto (',' :: prettyMembers rest level more) level v

end

/-- The text of a value with a line for each item and member. -/
def pretty (v : Value) : List Char := prettyOnto [] 0 v

/-! ## What follows a value stays as it is -/

mutual

/-- What follows a value is not changed by writing the value in front of it. -/
theorem prettyOnto_append (a b : List Char) :
    (level : Nat) → (v : Value) → prettyOnto (a ++ b) level v = prettyOnto a level v ++ b
  | _, .null | _, .bool true | _, .bool false | _, .number _ | _, .string _ => by
    rw [prettyOnto, prettyOnto, List.append_assoc]
  | _, .missing _ | _, .uncoloned _ => rfl
  | _, .array [] _ | _, .object [] _ => rfl
  | level, .array (v :: more) _ => by
    have h := prettyItems_append (newline level ++ ']' :: a) b (level + 1) (v :: more)
    simp_all [prettyOnto]
  | level, .object (m :: more) _ => by
    have h := prettyMembers_append (newline level ++ '\x7d' :: a) b (level + 1) (m :: more)
    simp_all [prettyOnto]

/-- What follows the items of an array is not changed by writing them in front of it. -/
theorem prettyItems_append (a b : List Char) :
    (level : Nat) → (items : List Value) →
      prettyItems (a ++ b) level items = prettyItems a level items ++ b
  | _, [] => rfl
  | level, [v] => by simp [prettyItems, prettyOnto_append a b level v]
  | level, v :: w :: more => by
    have h := prettyItems_append a b level (w :: more)
    have hv := prettyOnto_append (',' :: prettyItems a level (w :: more)) b level v
    simp_all [prettyItems]

/-- What follows the members of an object is not changed by writing them in front of it. -/
theorem prettyMembers_append (a b : List Char) :
    (level : Nat) → (members : List (Text × Value)) →
      prettyMembers (a ++ b) level members = prettyMembers a level members ++ b
  | _, [] => rfl
  | level, [(key, v)] => by simp [prettyMembers, prettyOnto_append a b level v]
  | level, (key, v) :: w :: more => by
    have h := prettyMembers_append a b level (w :: more)
    have hv := prettyOnto_append (',' :: prettyMembers a level (w :: more)) b level v
    simp_all [prettyMembers]

end

end Value

end JsonnetTree.Json
