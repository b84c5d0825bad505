import JsonnetTree.Command
import JsonnetTree.Walk

/-!
# Arguments of the command line

A call names a command and the file of a tree. Options may stand before the name of the command
or after it, in any order, but each only once in either place.
-/

namespace JsonnetTree.CommandLine

/-- How much is logged. -/
inductive LogLevel where
  | trace
  | debug
  | info
  | warn
  | error
  deriving DecidableEq, Inhabited, Repr

/-- The words for levels. -/
def LogLevel.words : List (String × LogLevel) :=
  [("trace", .trace), ("debug", .debug), ("info", .info), ("warn", .warn), ("error", .error)]

/-- The words for formats. -/
def formatWords : List (String × SymbolFormat) :=
  [("json", .json), ("text", .text)]

/-- Reads a decimal number, which may have a plus sign. -/
def readNumber? (text : String) : Option Nat :=
  let digits :=
    match text.toList with
    | '+' :: rest => rest
    | all => all
  if digits ≠ [] ∧ digits.all Char.isDigit then
    some (digits.foldl (fun n c => n * 10 + (c.toNat - '0'.toNat)) 0)
  else none

/-- Reads a limit on the depth of trees. -/
def readDepth? (text : String) : Option Nat :=
  (readNumber? text).filter (· ≤ maxDepthLimit)

/-- Reads the name of a file. -/
def readPath? (text : String) : Option String :=
  if text = "" then none else some text

/-! ## Options -/

/-- The options that were given in one place. -/
structure Settings where
  logLevel : Option LogLevel := none
  maxDepth : Option Nat := none
  source : Option String := none
  format : Option SymbolFormat := none
  padArrays : Bool := false
  noPadObjects : Bool := false
  deriving DecidableEq, Inhabited, Repr

/-- What an option does with its value to the settings. It fails if it was given before, or if
the value is none of its own. -/
inductive OptionEffect where
  | value (set : Settings → String → Option Settings)
  | flag (set : Settings → Option Settings)

/-- The effect of an option that has a value. -/
def OptionEffect.ofReader {α : Type} (get : Settings → Option α)
    (set : Settings → α → Settings) (read : String → Option α) : OptionEffect :=
  .value fun s text => if (get s).isSome then none else (read text).map (set s)

/-- The effect of an option without a value. -/
def OptionEffect.ofFlag (get : Settings → Bool) (set : Settings → Settings) : OptionEffect :=
  .flag fun s => if get s then none else some (set s)

/-- The names and effects of options. -/
abbrev OptionTable := List (String × OptionEffect)

/-- The options of all commands. -/
def sharedOptions : OptionTable :=
  [("log-level", .ofReader (·.logLevel) (fun s level => { s with logLevel := some level })
      (LogLevel.words.lookup ·)),
    ("max-depth", .ofReader (·.maxDepth) (fun s depth => { s with maxDepth := some depth })
      readDepth?),
    ("source", .ofReader (·.source) (fun s path => { s with source := some path }) readPath?)]

/-- The options of commands that print source text. -/
def layoutOptions : OptionTable :=
  [("pad-arrays", .ofFlag (·.padArrays) fun s => { s with padArrays := true }),
    ("no-pad-objects", .ofFlag (·.noPadObjects) fun s => { s with noPadObjects := true })]

/-- The options of commands that list symbols. -/
def listingOptions : OptionTable :=
  [("format", .ofReader (·.format) (fun s format => { s with format := some format })
    (formatWords.lookup ·))]

/-- The layout that the settings ask for. -/
def Settings.layout (s : Settings) : LayoutOptions :=
  { padArrays := s.padArrays, padObjects := !s.noPadObjects }

/-! ## Commands -/

/-- A command as it is called: its name, its own options, and what it does. -/
structure Entry where
  name : String
  options : OptionTable
  command : Settings → Command

/-- All commands. -/
def entries : List Entry :=
  [⟨"dot", [], fun _ => .graph⟩,
    ⟨"symbols", listingOptions, fun s => .symbols (s.format.getD .json)⟩,
    ⟨"fmt", layoutOptions, fun s => .print s.layout⟩,
    ⟨"expand", layoutOptions, fun s => .expand s.layout⟩,
    ⟨"lower", [], fun _ => .lower⟩,
    ⟨"imports", [], fun _ => .imports⟩]

/-- The command of a name. -/
def Entry.ofName? (name : String) : Option Entry :=
  entries.find? (·.name = name)

/-! ## Reading arguments -/

/-- The form of an argument. -/
inductive Argument where
  /-- Two dashes alone: what follows are no options. -/
  | escape
  /-- The name of an option, perhaps with a value after an equals sign. -/
  | long (name : String) (value : Option String)
  /-- A dash and a letter, perhaps with more letters. -/
  | short (letter : Char)
  | plain
  deriving DecidableEq, Inhabited, Repr

/-- The form of an argument. A dash alone is plain. -/
def Argument.ofString (text : String) : Argument :=
  match text.toList with
  | '-' :: '-' :: [] => .escape
  | '-' :: '-' :: rest =>
    let name := String.ofList (rest.takeWhile (· != '='))
    match rest.dropWhile (· != '=') with
    | [] => .long name none
    | _ :: value => .long name (some (String.ofList value))
  | '-' :: letter :: _ => .short letter
  | _ => .plain

/-- Why a call names no work to do. -/
inductive Stop where
  | help
  | version
  /-- The call is not understood. -/
  | usage
  deriving DecidableEq, Inhabited, Repr

/-- The options that end a call at once. Only those before the name of the command may ask
for the version. -/
def stopOf (outer : Bool) : Argument → Stop
  | .short 'h' | .long "help" none => .help
  | .short 'V' | .long "version" none => if outer then .version else .usage
  | _ => .usage

/-- Reads options up to the first argument that is none. -/
def readOptions (outer : Bool) (table : OptionTable) :
    Settings → List String → Except Stop (Settings × List String)
  | s, [] => .ok (s, [])
  | s, text :: rest =>
    match Argument.ofString text with
    | .plain | .escape => .ok (s, text :: rest)
    | .short letter => .error (stopOf outer (.short letter))
    | .long name value =>
      match table.lookup name, value, rest with
      | some (.value set), some value, rest =>
        match set s value with
        | some s => readOptions outer table s rest
        | none => .error .usage
      | some (.value set), none, value :: rest =>
        match Argument.ofString value, set s value with
        | .plain, some s => readOptions outer table s rest
        | _, _ => .error .usage
      | some (.flag set), none, rest =>
        match set s with
        | some s => readOptions outer table s rest
        | none => .error .usage
      | _, value, _ => .error (stopOf outer (.long name value))

/-- Reads the arguments after the name of a command: options, and one file. -/
def readOperand (table : OptionTable) (args : List String) : Except Stop (Settings × String) := do
  match ← readOptions false table {} args with
  | (s, "--" :: [path]) => .ok (s, path)
  | (_, "--" :: _) => .error .usage
  | (_, []) => .error .usage
  | (s, path :: rest) =>
    match ← readOptions false table s rest with
    | (s, []) | (s, ["--"]) => .ok (s, path)
    | _ => .error .usage

/-- A call of a command. -/
structure Call where
  command : Command
  path : String
  maxDepth : Nat
  /-- The source text that the tree was read from. -/
  source : Option String
  deriving DecidableEq, Inhabited, Repr

/-- Reads the arguments of a call. Of an option that stands both before and after the name of
the command, the latter counts. -/
def Call.ofArgs (args : List String) : Except Stop Call := do
  match ← readOptions true sharedOptions {} args with
  | (_, "help" :: names) =>
    if names.length ≤ 1 ∧ names.all (fun name => name = "help" || (Entry.ofName? name).isSome) then
      .error .help
    else .error .usage
  | (outer, name :: rest) =>
    match Entry.ofName? name with
    | none => .error .usage
    | some entry =>
      let (inner, path) ← readOperand (sharedOptions ++ entry.options) rest
      match readPath? path with
      | none => .error .usage
      | some path =>
        .ok ⟨entry.command inner, path, (inner.maxDepth <|> outer.maxDepth).getD defaultDepth,
          inner.source <|> outer.source⟩
  | (_, []) => .error .usage

end JsonnetTree.CommandLine
