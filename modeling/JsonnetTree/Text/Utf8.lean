/-!
# Offsets in bytes

A place in a text can be given by the number of bytes before it in UTF-8. Not every number of
bytes is a place: a character may take several bytes.
-/

namespace JsonnetTree.Text

/-- How many bytes a text takes. -/
def utf8Length : List Char → Nat
  | [] => 0
  | c :: rest => c.utf8Size + utf8Length rest

/-- The empty text takes no bytes. -/
@[simp] theorem utf8Length_nil : utf8Length [] = 0 := rfl

/-- A character takes its bytes in front of the others. -/
@[simp] theorem utf8Length_cons (c : Char) (text : List Char) :
    utf8Length (c :: text) = c.utf8Size + utf8Length text := rfl

/-- Texts one after the other take the bytes of both. -/
@[simp] theorem utf8Length_append (left right : List Char) :
    utf8Length (left ++ right) = utf8Length left + utf8Length right := by
  induction left with
  | nil => simp
  | cons c left ih => simp [ih, Nat.add_assoc]

/-- The start of a text that takes at most `bytes` bytes, as long as possible. -/
def takeBytes : (bytes : Nat) → List Char → List Char
  | _, [] => []
  | bytes, c :: rest =>
    if c.utf8Size ≤ bytes then c :: takeBytes (bytes - c.utf8Size) rest else []

/-- Cuts a text after `bytes` bytes, unless that is inside a character or after the end. -/
def splitAtByte? (bytes : Nat) (text : List Char) : Option (List Char × List Char) :=
  let start := takeBytes bytes text
  if utf8Length start = bytes then some (start, text.drop start.length) else none

/-- The bytes of a start of a text are taken back as that start. -/
theorem takeBytes_utf8Length (left right : List Char) :
    takeBytes (utf8Length left) (left ++ right) = left := by
  induction left with
  | nil =>
    cases right with
    | nil => rfl
    | cons c right => simp [takeBytes, Nat.not_le.2 c.utf8Size_pos]
  | cons c left ih => simp [takeBytes, ih]

/-- A text is cut between any two of its characters. -/
theorem splitAtByte?_utf8Length (left right : List Char) :
    splitAtByte? (utf8Length left) (left ++ right) = some (left, right) := by
  simp [splitAtByte?, takeBytes_utf8Length]

end JsonnetTree.Text
