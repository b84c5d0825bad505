import JsonnetTree.Codec.Basic

/-!
# Records

A record is described once, by the list of its fields, and the description both reads and
writes it. It is written as an object with every field. It is read from an object, whose
members may come in any order and whose unknown members are passed over, or from an array
that holds the fields in the order of the description.
-/

namespace JsonnetTree

open Json

/-- What a record takes for a field that is left out. -/
inductive Absence (β : Type) where
  /-- The field must be there. -/
  | refused
  /-- An object may leave it out, but an array may not end before it. -/
  | optional (value : β)
  /-- It may be left out. -/
  | allowed (value : β)

/-- A field of a record. -/
structure Field (β : Type) where
  name : String
  codec : Codec β
  absence : Absence β

/-- The fields of a record, with the types of their values. -/
inductive Fields : List Type → Type 1 where
  | nil : Fields []
  | cons {β : Type} {ts : List Type} (field : Field β) (rest : Fields ts) : Fields (β :: ts)

/-- One value for every field. -/
def Row : List Type → Type
  | [] => Unit
  | β :: ts => β × Row ts

/-- A value for every field that has been read so far. -/
def Slots : List Type → Type
  | [] => Unit
  | β :: ts => Option β × Slots ts

namespace Fields

variable {β : Type} {ts : List Type}

/-- Adds a field that must be there. -/
def required (name : String) (codec : Codec β) (rest : Fields ts) : Fields (β :: ts) :=
  .cons ⟨name, codec, .refused⟩ rest

/-- Adds a field that may be left out. -/
def withDefault (name : String) (codec : Codec β) (value : β) (rest : Fields ts) :
    Fields (β :: ts) :=
  .cons ⟨name, codec, .allowed value⟩ rest

/-- Adds a field whose value may be absent. -/
def optional (name : String) (codec : Codec β) (rest : Fields ts) : Fields (Option β :: ts) :=
  .cons ⟨name, codec.option, .optional none⟩ rest

/-- The number of fields. -/
def size : {ts : List Type} → Fields ts → Nat
  | _, .nil => 0
  | _, .cons _ rest => rest.size + 1

/-- No field has been read. -/
def noneRead : {ts : List Type} → Fields ts → Slots ts
  | _, .nil => ()
  | _, .cons _ rest => (none, rest.noneRead)

/-- Reads the member `key` into its slot. There are no slots to return when the key is not
the name of a field. -/
def put : {ts : List Type} → Fields ts → Slots ts → (key : String) → Value →
    Read (Option (Slots ts))
  | _, .nil, _, _, _ => .ok none
  | _, .cons field rest, (slot, slots), key, v =>
    if key = field.name then
      if slot.isSome then .error (.mismatch (.duplicateField field.name))
      else do
        let value ← field.codec.read v
        .ok (some (some value, slots))
    else do
      let slots? ← rest.put slots key v
      .ok (slots?.map (slot, ·))

/-- Reads the members of an object in their order. -/
def readMembers (fields : Fields ts) : List (Text × Value) → Slots ts → Read (Slots ts)
  | [], slots => .ok slots
  | (key, v) :: members, slots => do
    let name ← key.content
    match ← fields.put slots name v with
    | some slots => fields.readMembers members slots
    | none =>
      Read.ofFault v.pass
      fields.readMembers members slots

/-- Takes the values that have been read, and those of the fields that an object leaves out. -/
def fill : {ts : List Type} → Fields ts → Slots ts → Read (Row ts)
  | _, .nil, _ => .ok ()
  | _, .cons field rest, (slot, slots) => do
    let value ←
      match slot, field.absence with
      | some value, _ => .ok value
      | none, .optional value => .ok value
      | none, .allowed value => .ok value
      | none, .refused => .error (.mismatch (.missingField field.name))
    let values ← rest.fill slots
    .ok (value, values)

/-- Reads the fields from an array in order. `index` counts the fields read before, and
`short` makes the complaint that the array is too short. -/
def readItems (short : Nat → Complaint) (ending : Ending) :
    {ts : List Type} → Fields ts → (index : Nat) → List Value → Read (Row ts)
  | _, .nil, _, [] => do
    Read.ofFault ending.check
    .ok ()
  | _, .nil, _, _ :: _ => .error (.fault .malformed)
  | _, .cons field rest, index, v :: items => do
    let value ← field.codec.read v
    let values ← rest.readItems short ending (index + 1) items
    .ok (value, values)
  | _, .cons field rest, index, [] => do
    Read.ofFault ending.check
    match field.absence with
    | .allowed value =>
      let values ← rest.readItems short ending (index + 1) []
      .ok (value, values)
    | _ => .error (short index)

/-- Writes every field as a member. -/
def write : {ts : List Type} → Fields ts → Row ts → List (String × Value)
  | _, .nil, _ => []
  | _, .cons field rest, (value, values) =>
    (field.name, field.codec.write value) :: rest.write values

end Fields

/-- The description of a record type: its name in messages, its fields, and how a record is
taken apart into their values and put together from them. -/
structure Record (ρ : Type) where
  name : String
  types : List Type
  fields : Fields types
  toRow : ρ → Row types
  ofRow : Row types → ρ

/-- The codec of a record type. -/
def Record.codec {ρ : Type} (r : Record ρ) : Codec ρ where
  read
    | .object members ending => do
      let slots ← r.fields.readMembers members r.fields.noneRead
      Read.ofFault ending.check
      let row ← r.fields.fill slots
      .ok (r.ofRow row)
    | .array items ending => do
      let short length := .mismatch (.tooShort length r.name r.fields.size)
      let row ← r.fields.readItems short ending 0 items
      .ok (r.ofRow row)
    | v => v.refuse (.record r.name)
  write record := .ofMembers (r.fields.write (r.toRow record))

end JsonnetTree
