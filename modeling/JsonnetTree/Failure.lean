import JsonnetTree.Document.Load
import JsonnetTree.Layout.Printer
import JsonnetTree.Lowering

/-!
# Failures

Whatever goes wrong while a command runs is reported as a failure. A failure has a message,
decides the exit code, and may point at a location of the source text.
-/

namespace JsonnetTree

/-- Why a command has no result. -/
inductive Failure where
  | fileNotFound (path : String)
  /-- A tree cannot be read, or is not what a command needs. -/
  | invalidTree (message : String) (file : Option String) (location : Option Location)
  /-- A walk over a tree ended early. -/
  | walkFailed (message : String) (phase : Option String) (location : Option Location)
  | internal (message : String)
  deriving DecidableEq, Inhabited, Repr

namespace Failure

/-- The message of a failure. -/
def message : Failure → String
  | .fileNotFound path => String.join ["file not found: ", path]
  | .invalidTree message _ _ => String.join ["invalid tree: ", message]
  | .walkFailed message _ _ => String.join ["traversal failed: ", message]
  | .internal message => String.join ["internal error: ", message]

/-- The exit code of a command that fails. -/
def exitCode : Failure → Nat
  | .fileNotFound _ => 3
  | .invalidTree _ _ _ => 3
  | .walkFailed _ _ _ => 4
  | .internal _ => 10

/-- The file of an invalid tree. -/
def file? : Failure → Option String
  | .invalidTree _ file _ => file
  | _ => none

/-- The phase in which a walk ended. -/
def phase? : Failure → Option String
  | .walkFailed _ phase _ => phase
  | _ => none

/-- The location that a failure points at. -/
def location? : Failure → Option Location
  | .invalidTree _ _ location => location
  | .walkFailed _ _ location => location
  | _ => none

end Failure

/-! ## The failure for each error

An unset location is not reported. -/

/-- The failure for a walk that ended early. -/
def WalkError.failure (e : WalkError) : Failure :=
  .walkFailed e.message (e.phase?.map Phase.name) e.location.known?

/-- The failure for a tree that cannot be loaded. -/
def LoadError.failure (e : LoadError) : Failure :=
  .invalidTree e.message (some e.file) (e.location?.bind Location.known?)

/-- The failure for a tree that cannot be lowered. -/
def LowerError.failure : LowerError → Failure
  | .walk e => e.failure
  | e => .invalidTree e.message none (e.location?.bind Location.known?)

/-- No tree read from source text makes printing stop half way. -/
def PrintError.failure : PrintError → Failure
  | .walk e => e.failure
  | .halted _ => .internal "command thread panicked"

end JsonnetTree
