import JsonnetTree.CommandLine.Arguments
import JsonnetTree.Diagnostic.Snippet

/-!
# Outcomes of calls

A call of the command line reads files, writes to two streams and ends with a code. Here the files
are given, so that the outcome is a function of the call.
-/

namespace JsonnetTree.CommandLine

/-- Why a file has no text. -/
inductive ReadFault where
  | missing
  | directory
  | notText
  | other (reason : String)
  deriving DecidableEq, Inhabited, Repr

/-- The failure for a file that cannot be read. -/
def ReadFault.failure (path : String) : ReadFault → Failure
  | .missing => .fileNotFound path
  | .directory => unreadable "Is a directory (os error 21)"
  | .notText => unreadable "stream did not contain valid UTF-8"
  | .other reason => unreadable reason
where
  /-- The failure of a file that is there and cannot be read. -/
  unreadable (reason : String) : Failure :=
    .invalidTree ("cannot read " ++ path ++ ": " ++ reason) (some path) none

/-- The text of a file with the given content. -/
def textOfBytes (content : ByteArray) : Except ReadFault String :=
  match String.fromUTF8? content with
  | some text => .ok text
  | none => .error .notText

/-- Files by their names. -/
abbrev Files := String → Except ReadFault String

/-- What a call leaves behind. -/
structure Outcome where
  exitCode : Nat
  stdout : String
  stderr : String
  deriving DecidableEq, Inhabited, Repr

/-- The result of a command on the tree of a file. -/
def Call.run (files : Files) (call : Call) : Except Failure String := do
  let text ← (files call.path).mapError (·.failure call.path)
  let tree ← (Tree.load call.maxDepth call.path text).mapError LoadError.failure
  call.command.run call.maxDepth tree

/-- The diagnostic for a failure, if it points at a place and the source text is known. -/
def Call.diagnostic? (files : Files) (call : Call) (f : Failure) :
    Except SplitCharacter (Option String) :=
  match f.location?, call.source.map files with
  | some location, some (.ok source) => some <$> diagnostic source location f.message
  | _, _ => .ok none

/-- The outcome of a call. A failure is reported as JSON on the one stream, and shown in the
source text on the other. -/
def Call.outcome (files : Files) (call : Call) : Outcome :=
  match call.run files with
  | .ok text => ⟨0, text, ""⟩
  | .error f =>
    match call.diagnostic? files f with
    | .ok shown => ⟨f.exitCode, f.text, (shown.map (· ++ "\n")).getD ""⟩
    | .error e => ⟨101, "", e.message ++ "\n"⟩

/-- The name and the version of the tool. -/
def versionText : String := "jsonnet-tool 0.1.0\n"

/-- The outcome of a call that names no work to do. -/
def Stop.outcome : Stop → Outcome
  | .help => ⟨0, "", ""⟩
  | .version => ⟨0, versionText, ""⟩
  | .usage => ⟨2, "", ""⟩

/-- The outcome of a call with the given arguments. -/
def outcome (files : Files) (args : List String) : Outcome :=
  match Call.ofArgs args with
  | .ok call => call.outcome files
  | .error stop => stop.outcome

end JsonnetTree.CommandLine
