import JsonnetTree.Json.Token

/-!
# JSON values, as far as they can be read

A text that is no JSON still has a value: it holds all that could be read, in order, and
marks the place where reading had to stop. So a reader of typed data meets the mistakes of
a document, those of form and those of content alike, in the order in which they stand there.
-/

namespace JsonnetTree.Json

/-- How the list of an array or an object ends. -/
inductive Ending where
  /-- With its bracket. -/
  | closed
  /-- An element is followed by neither a comma nor the bracket, but by this token or by the
  end of the text. -/
  | stopped (found : Option Token)
  /-- Where a key should stand in an object, there is this token or the end of the text. -/
  | noKey (found : Option Token)
  deriving DecidableEq, Inhabited, Repr

/-- A JSON value. -/
inductive Value where
  | null
  | bool (b : Bool)
  | number (n : Number)
  | string (t : Text)
  | array (items : List Value) (ending : Ending)
  | object (members : List (Text × Value)) (ending : Ending)
  /-- Where a value should start, there is this token or the end of the text. -/
  | missing (found : Option Token)
  /-- Where the colon before a value should stand, there is this token or the end of the text. -/
  | uncoloned (found : Option Token)
  deriving Inhabited, Repr

namespace Value

/-- A string value with the given content. -/
def ofString (s : String) : Value := .string (.plain s)

/-- A natural number as a value. -/
def ofNat (n : Nat) : Value := .number (.ofNat n)

/-- An array that is complete. -/
def ofList (items : List Value) : Value := .array items .closed

/-- An object that is complete. -/
def ofMembers (members : List (String × Value)) : Value :=
  .object (members.map fun (key, value) => (.plain key, value)) .closed

mutual

/-- How deeply arrays and objects are nested in a value. -/
def nesting : Value → Nat
  | .array items _ => nestingItems items + 1
  | .object members _ => nestingMembers members + 1
  | _ => 0

/-- The deepest nesting among the items of an array. -/
def nestingItems : List Value → Nat
  | [] => 0
  | v :: rest => max v.nesting (nestingItems rest)

/-- The deepest nesting among the members of an object. -/
def nestingMembers : List (Text × Value) → Nat
  | [] => 0
  | (_, v) :: rest => max v.nesting (nestingMembers rest)

end

end Value

/-! ## Faults -/

/-- The fault of a text that has `found` where a bracket, a comma or a colon must stand. -/
def Fault.atMark : (found : Option Token) → Fault
  | none => .early
  | some _ => .malformed

/-- The fault of a text that has `found` where only a string can stand. -/
def Fault.atString : (found : Option Token) → Fault
  | none => .early
  | some (.brokenText strict _) => strict
  | some _ => .malformed

/-- The fault of a text that has `found` where a value must start. -/
def Fault.atValue : (found : Option Token) → Fault
  | none => .early
  | some (.brokenWord fault) => fault
  | some .cutNumber => .early
  | some (.brokenText strict _) => strict
  | some _ => .malformed

/-- The fault of a broken token for one who passes over it, and so does not look whether a
number goes on after the end of the text. -/
def Fault.inPassing : (found : Option Token) → (otherwise : Fault) → Fault
  | some .cutNumber, _ => .malformed
  | some (.brokenText _ lax), _ => lax
  | _, otherwise => otherwise

/-- Checks how a list ends. -/
def Ending.check : Ending → Except Fault Unit
  | .closed => .ok ()
  | .stopped found => .error (.atMark found)
  | .noKey found => .error (.atString found)

namespace Value

mutual

/-- Passes over a value whose content does not matter, and so does not mind unpaired
surrogates and numbers out of range. -/
def pass : Value → Except Fault Unit
  | .array items ending => do
    passItems items
    ending.check
  | .object members ending => do
    passMembers members
    match ending with
    | .noKey found => .error (Fault.inPassing found (.atString found))
    | _ => ending.check
  | .missing found => .error (Fault.inPassing found (.atValue found))
  | .uncoloned found => .error (.atMark found)
  | _ => .ok ()

/-- Passes over the items of an array. -/
def passItems : List Value → Except Fault Unit
  | [] => .ok ()
  | v :: rest => do
    v.pass
    passItems rest

/-- Passes over the members of an object. -/
def passMembers : List (Text × Value) → Except Fault Unit
  | [] => .ok ()
  | (_, v) :: rest => do
    v.pass
    passMembers rest

end

end Value

end JsonnetTree.Json
