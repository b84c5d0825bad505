import JsonnetTree.Json.Value
import JsonnetTree.Text.Quoted

/-!
# Complaints of a reader

A document is refused because its text is no JSON (a fault), or because it holds something
else than what is wanted (a mismatch). This module gives the causes and their wording.
-/

namespace JsonnetTree

open Json

/-- What a reader finds where it wants something else. -/
inductive Found where
  | null
  | bool (b : Bool)
  | number (n : Number)
  | string (s : String)
  | array
  | object
  /-- The bare name of a variant. -/
  | bareVariant
  deriving DecidableEq, Inhabited, Repr

/-- What is found, in the words of a message. -/
def Found.describe : Found → String
  | .null => "null"
  | .bool true => "boolean `true`"
  | .bool false => "boolean `false`"
  | .number n => n.describe
  | .string s => "string " ++ Text.quoted s
  | .array => "sequence"
  | .object => "map"
  | .bareVariant => "unit variant"

/-- What a reader wants. -/
inductive Wanted where
  | record (name : String)
  | string
  | array
  | boolean
  | word32
  | word64
  /-- The null that stands for an absent payload. -/
  | nothing
  /-- A variant together with its payload. -/
  | payload
  deriving DecidableEq, Inhabited, Repr

/-- What is wanted, in the words of a message. -/
def Wanted.describe : Wanted → String
  | .record name => "struct " ++ name
  | .string => "a string"
  | .array => "a sequence"
  | .boolean => "a boolean"
  | .word32 => "u32"
  | .word64 => "usize"
  | .nothing => "unit"
  | .payload => "newtype variant"

/-- How JSON content differs from what is wanted. -/
inductive Mismatch where
  | missingField (name : String)
  | duplicateField (name : String)
  | unknownVariant (name : String) (known : List String)
  | wrongType (found : Found) (wanted : Wanted)
  | outOfRange (value : Int) (wanted : Wanted)
  /-- The array form of a record ends after `length` of its `size` fields. -/
  | tooShort (length : Nat) (record : String) (size : Nat)
  deriving DecidableEq, Inhabited, Repr

/-- The names of variants as a message lists them. -/
def Mismatch.listVariants : List String → String
  | [a] => "`" ++ a ++ "`"
  | [a, b] => "`" ++ a ++ "` or `" ++ b ++ "`"
  | names => "one of " ++ ", ".intercalate (names.map fun name => "`" ++ name ++ "`")

/-- The wording of a mismatch. -/
def Mismatch.message : Mismatch → String
  | .missingField name => String.join ["missing field `", name, "`"]
  | .duplicateField name => String.join ["duplicate field `", name, "`"]
  | .unknownVariant name known =>
    String.join ["unknown variant `", name, "`, expected ", listVariants known]
  | .wrongType found wanted =>
    String.join ["invalid type: ", found.describe, ", expected ", wanted.describe]
  | .outOfRange value wanted =>
    String.join ["invalid value: integer `", toString value, "`, expected ", wanted.describe]
  | .tooShort length record size =>
    String.join ["invalid length ", toString length, ", expected struct ", record, " with ",
      toString size, if size = 1 then " element" else " elements"]

/-- Why a document is refused. -/
inductive Complaint where
  | fault (f : Fault)
  | mismatch (m : Mismatch)
  deriving DecidableEq, Inhabited, Repr

/-- The wording of a complaint. -/
def Complaint.message : Complaint → String
  | .fault .early => "the text ends too early"
  | .fault .malformed => "the text is not JSON"
  | .mismatch m => m.message

/-- The outcome of reading. -/
abbrev Read (α : Type) := Except Complaint α

/-- Takes the outcome of a check of the text. -/
def Read.ofFault {α : Type} : Except Fault α → Read α
  | .ok a => .ok a
  | .error f => .error (.fault f)

end JsonnetTree
