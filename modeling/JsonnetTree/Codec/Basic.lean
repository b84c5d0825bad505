import JsonnetTree.Codec.Complaint

/-!
# Codecs

A codec reads a type from JSON values and writes it as such. What it reads it takes in
document order, so that of several mistakes the first one is reported.
-/

namespace JsonnetTree

open Json

/-- How a type is read from JSON values and written as such. -/
structure Codec (α : Type) where
  read : Value → Read α
  write : α → Value

/-- The content of a string that is wanted. -/
def Json.Text.content : Text → Read String
  | .plain s => .ok s
  | .unpaired => .error (.fault .malformed)

/-- What a value turns out to be when it is not what is wanted. A number is looked at whole,
an array or an object only at its bracket. -/
def Json.Value.found : Value → Read Found
  | .null => .ok .null
  | .bool b => .ok (.bool b)
  | .number n => if n.outOfRange then .error (.fault .malformed) else .ok (.number n)
  | .string t => Found.string <$> t.content
  | .array _ _ => .ok .array
  | .object _ _ => .ok .object
  | .missing found => .error (.fault (.atValue found))
  | .uncoloned found => .error (.fault (.atMark found))

/-- Refuses a value that is not what is wanted. -/
def Json.Value.refuse {α : Type} (v : Value) (wanted : Wanted) : Read α := do
  let found ← v.found
  .error (.mismatch (.wrongType found wanted))

namespace Codec

variable {α : Type}

/-- Strings. -/
def string : Codec String where
  read
    | .string t => t.content
    | v => v.refuse .string
  write := Value.ofString

/-- Truth values. -/
def boolean : Codec Bool where
  read
    | .bool b => .ok b
    | v => v.refuse .boolean
  write := .bool

/-- Reads a natural number below `bound`. -/
def readBelow (bound : Nat) (wanted : Wanted) : Value → Read Nat
  | .number n =>
    match n.integer? with
    | some i =>
      if 0 ≤ i ∧ i < bound then .ok i.toNat else .error (.mismatch (.outOfRange i wanted))
    | none => (Value.number n).refuse wanted
  | v => v.refuse wanted

/-- Natural numbers of 32 bits. -/
def word32 : Codec UInt32 where
  read v := UInt32.ofNat <$> readBelow UInt32.size .word32 v
  write n := .ofNat n.toNat

/-- Natural numbers of 64 bits. -/
def word64 : Codec UInt64 where
  read v := UInt64.ofNat <$> readBelow UInt64.size .word64 v
  write n := .ofNat n.toNat

/-- Reads the items of an array one after the other. -/
def readItems (read : Value → Read α) : List Value → Read (List α)
  | [] => .ok []
  | v :: rest => do
    let a ← read v
    let as ← readItems read rest
    .ok (a :: as)

/-- Arrays of any length. -/
def list (c : Codec α) : Codec (List α) where
  read
    | .array items ending => do
      let as ← readItems c.read items
      Read.ofFault ending.check
      .ok as
    | v => v.refuse .array
  write as := .ofList (as.map c.write)

/-- Values that may be absent, which is written `null`. -/
def option (c : Codec α) : Codec (Option α) where
  read
    | .null => .ok none
    | v => some <$> c.read v
  write
    | none => .null
    | some a => c.write a

end Codec

end JsonnetTree
