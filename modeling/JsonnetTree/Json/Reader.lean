import JsonnetTree.Json.Value

/-!
# Reading a JSON text

A value is built from tokens by a machine that takes one token at a time and keeps the
brackets that are still open. Where a token cannot be used the machine stops, and the
brackets are closed around what it has.
-/

namespace JsonnetTree.Json

/-- An open bracket and what has been read inside it, last first. -/
inductive Frame where
  | array (items : List Value)
  /-- The value of `key` is being read. -/
  | object (members : List (Text × Value)) (key : Text)
  deriving Inhabited

/-- The whole value, when `value` is the last thing that is read inside the open brackets. -/
def enclose : List Frame → Value → Value
  | [], value => value
  | .array items :: frames, value =>
    enclose frames (.array (value :: items).reverse (.stopped none))
  | .object members key :: frames, value =>
    enclose frames (.object ((key, value) :: members).reverse (.stopped none))

/-- What has been read of a document, and what may come next. -/
inductive State where
  /-- A value must come. -/
  | wantValue (frames : List Frame)
  /-- A value or the end of an empty array must come. -/
  | wantItem (frames : List Frame)
  /-- A key must come, or the end of the object if it has no members yet. -/
  | wantKey (members : List (Text × Value)) (frames : List Frame)
  /-- A colon must come. -/
  | wantColon (members : List (Text × Value)) (key : Text) (frames : List Frame)
  /-- A value is complete. -/
  | complete (value : Value) (frames : List Frame)
  /-- Nothing more is read: the document is broken, or goes on after its value. -/
  | stopped (value : Value)
  deriving Inhabited

namespace State

/-- The state before a document. -/
def start : State := .wantValue []

/-- The state after a token where a value must come. -/
def stepValue (frames : List Frame) : Token → State
  | .null => .complete .null frames
  | .bool b => .complete (.bool b) frames
  | .number n => .complete (.number n) frames
  | .text t => .complete (.string t) frames
  | .openArray => .wantItem (.array [] :: frames)
  | .openObject => .wantKey [] frames
  | token => .stopped (enclose frames (.missing (some token)))

/-- The state after a token that follows a complete value. -/
def stepComplete (value : Value) : List Frame → Token → State
  | [], _ => .stopped value
  | .array items :: frames, .comma => .wantValue (.array (value :: items) :: frames)
  | .array items :: frames, .closeArray => .complete (.array (value :: items).reverse .closed) frames
  | .array items :: frames, token =>
    .stopped (enclose frames (.array (value :: items).reverse (.stopped (some token))))
  | .object members name :: frames, .comma => .wantKey ((name, value) :: members) frames
  | .object members name :: frames, .closeObject =>
    .complete (.object ((name, value) :: members).reverse .closed) frames
  | .object members name :: frames, token =>
    .stopped (enclose frames
      (.object ((name, value) :: members).reverse (.stopped (some token))))

/-- The state after one more token. -/
def step : State → Token → State
  | .wantValue frames, token => stepValue frames token
  | .wantItem (.array items :: frames), .closeArray =>
    .complete (.array items.reverse .closed) frames
  | .wantItem frames, token => stepValue frames token
  | .wantKey members frames, .text t => .wantColon members t frames
  | .wantKey [] frames, .closeObject => .complete (.object [] .closed) frames
  | .wantKey members frames, token =>
    .stopped (enclose frames (.object members.reverse (.noKey (some token))))
  | .wantColon members name frames, .colon => .wantValue (.object members name :: frames)
  | .wantColon members name frames, token =>
    .stopped (enclose (.object members name :: frames) (.uncoloned (some token)))
  | .complete value frames, token => stepComplete value frames token
  | .stopped value, _ => .stopped value

end State

/-- What is read of a text: its value, and whether more than blanks follows it. -/
structure Reading where
  value : Value
  trailing : Bool
  deriving Inhabited

/-- What is read when no more tokens come. -/
def State.finish : State → Reading
  | .wantValue frames | .wantItem frames => ⟨enclose frames (.missing none), false⟩
  | .wantKey members frames =>
    ⟨enclose frames (.object members.reverse (.noKey none)), false⟩
  | .wantColon members name frames =>
    ⟨enclose (.object members name :: frames) (.uncoloned none), false⟩
  | .complete value [] => ⟨value, false⟩
  | .complete value (.array items :: frames) =>
    ⟨enclose frames (.array (value :: items).reverse (.stopped none)), false⟩
  | .complete value (.object members name :: frames) =>
    ⟨enclose frames (.object ((name, value) :: members).reverse (.stopped none)), false⟩
  | .stopped value => ⟨value, true⟩

/-- What is read of a text. -/
def Reading.ofChars (text : List Char) : Reading :=
  ((tokens text).foldl State.step .start).finish

end JsonnetTree.Json
