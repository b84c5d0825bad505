import JsonnetTree.Codec.Basic

/-!
# Tagged variants

A value of a closed set of variants is an object with one member, whose key is the tag of
the variant and whose value is its payload. A variant without a payload is written as its
bare tag, and may also be read from an object that has `null` for the payload.

A reader of variants looks at the first character of a value only: what is neither a string
nor an object is refused without being read.
-/

namespace JsonnetTree

open Json

variable {σ : Type}

/-- What comes with the tag of a variant. -/
inductive Payload (σ : Type) where
  | absent (value : σ)
  | present (read : Value → Read σ)

/-- One of a closed set of variants. -/
structure Variant (σ : Type) where
  tag : String
  payload : Payload σ

namespace Variant

/-- The payload of the variant with a given tag. -/
def select (variants : List (Variant σ)) (name : String) : Read (Payload σ) :=
  match variants.find? (·.tag == name) with
  | some v => .ok v.payload
  | none => .error (.mismatch (.unknownVariant name (variants.map (·.tag))))

/-- Reads a variant from its bare tag. -/
def readBare (variants : List (Variant σ)) (name : String) : Read σ := do
  match ← select variants name with
  | .absent value => .ok value
  | .present _ => .error (.mismatch (.wrongType .bareVariant .payload))

/-- Reads a variant from its tag and its payload. -/
def readTagged (variants : List (Variant σ)) (name : String) (payload : Value) : Read σ := do
  match ← select variants name with
  | .absent value =>
    match payload with
    | .null => .ok value
    | other => other.refuse .nothing
  | .present read => read payload

/-- Checks that an object ends after its first member. -/
def checkEnd : List (Text × Value) → Ending → Read Unit
  | [], .closed => .ok ()
  | [], .stopped found => .error (.fault (.atMark found))
  | [], .noKey _ => .error (.fault .malformed)
  | _ :: _, _ => .error (.fault .malformed)

/-- Reads one of the given variants. -/
def read (variants : List (Variant σ)) : Value → Read σ
  | .string t => do
    let name ← t.content
    readBare variants name
  | .object [] (.noKey found) => .error (.fault (.atString found))
  | .object [] _ => .error (.fault .malformed)
  | .object ((key, payload) :: rest) ending => do
    let name ← key.content
    let value ← readTagged variants name payload
    checkEnd rest ending
    .ok value
  | .missing found => .error (.fault (.atString found))
  | .uncoloned found => .error (.fault (.atMark found))
  | _ => .error (.fault .malformed)

/-- Writes the tag of a variant with its payload. -/
def writeTagged (tag : String) (payload : Value) : Value :=
  .ofMembers [(tag, payload)]

end Variant

/-- The codec of a closed set of words. -/
def Codec.word (all : List σ) (tag : σ → String) : Codec σ where
  read := Variant.read (all.map fun a => ⟨tag a, .absent a⟩)
  write a := .ofString (tag a)

end JsonnetTree
