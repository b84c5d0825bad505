import JsonnetTree.Text.Printable

/-!
# Strings quoted in messages

A message quotes a string so that it fits on a line: quotes, backslashes and line breaks
are escaped, and a character without a shape of its own is given by its number.
-/

namespace JsonnetTree.Text

/-- How a message shows one character of a quoted string. -/
def showChar (c : Char) : String :=
  if c = '"' then "\\\""
  else if c = '\\' then "\\\\"
  else if c = '\n' then "\\n"
  else if c = '\r' then "\\r"
  else if c = '\t' then "\\t"
  else if c.toNat = 0 then "\\0"
  else if isPrintable c then c.toString
  else "\\u\x7b" ++ String.ofList (Nat.toDigits 16 c.toNat) ++ "\x7d"

/-- A string between quotes, as a message shows it. -/
def quoted (s : String) : String :=
  "\"" ++ String.join (s.toList.map showChar) ++ "\""

end JsonnetTree.Text
