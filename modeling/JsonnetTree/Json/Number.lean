import JsonnetTree.Json.Real

/-!
# Numbers as they are written

A number keeps what its text says: a sign, the number before the point, the digits after
the point, and the exponent.
-/

namespace JsonnetTree.Json

/-- A number of a document. There are no digits in `fraction` when it is written without a
point, for at least one digit follows a point. -/
structure Number where
  negative : Bool
  whole : Nat
  fraction : List Nat
  exponent : Option Int
  deriving DecidableEq, Inhabited, Repr

/-- A natural number written plainly. -/
def Number.ofNat (n : Nat) : Number := ⟨false, n, [], none⟩

/-- Whether a number is written without a point and without an exponent. -/
def Number.isPlain (n : Number) : Bool :=
  n.fraction.isEmpty && n.exponent.isNone

/-- The integer that a plain number stands for, if it fits into 64 bits, with a sign bit
for a negative one. Minus zero is no integer. -/
def Number.integer? (n : Number) : Option Int :=
  if !n.isPlain then none
  else if n.negative then
    if 0 < n.whole ∧ n.whole ≤ UInt64.size / 2 then some (-n.whole) else none
  else if n.whole < UInt64.size then some n.whole else none

/-- The size of a number as a double. -/
def Number.magnitude? (n : Number) : Option Float :=
  Real.ofParts n.whole n.fraction (n.exponent.getD 0)

/-- Whether a number is neither an integer nor in the range of a double. -/
def Number.outOfRange (n : Number) : Bool :=
  n.integer?.isNone && n.magnitude?.isNone

/-- A number in the words of a message: an integer, or a double in its shortest form. -/
def Number.describe (n : Number) : String :=
  match n.integer? with
  | some i => "integer `" ++ toString i ++ "`"
  | none =>
    let sign := if n.negative then "-" else ""
    "floating point `" ++ sign ++ ((n.magnitude?.map Real.render).getD "inf") ++ "`"

/-- The text of a number in a document. -/
def Number.chars (n : Number) : List Char :=
  (if n.negative then ['-'] else []) ++ Nat.toDigits 10 n.whole ++
    (if n.fraction.isEmpty then [] else '.' :: n.fraction.map Nat.digitChar) ++
    match n.exponent with
    | none => []
    | some e => 'e' :: (if e < 0 then ['-'] else []) ++ Nat.toDigits 10 e.natAbs

end JsonnetTree.Json
