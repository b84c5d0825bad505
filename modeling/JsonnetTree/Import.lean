import JsonnetTree.Walk

/-!
# Imports

The imports of a tree are listed in the order in which a walk meets them, with the paths as they
are written. The path of an import must be a literal.
-/

namespace JsonnetTree

/-- What an import yields. -/
inductive ImportKind where
  | code
  | text
  deriving DecidableEq, Inhabited, Repr

/-- The keyword of an import. -/
def ImportKind.keyword : ImportKind → String
  | .code => "import"
  | .text => "importstr"

/-- An import of a tree. -/
structure ImportRef where
  kind : ImportKind
  path : String
  location : Location
  deriving DecidableEq, Inhabited, Repr

/-- The kind and the file operand of an import. -/
def Expr.import? (e : Expr) : Option (ImportKind × Expr) :=
  match e.form with
  | .importCode file => some (.code, file)
  | .importText file => some (.text, file)
  | _ => none

/-- Collects imports on a walk, the last one first. -/
def importHook : Hook (List ImportRef) := fun phase e => do
  if phase = .pre then
    match e.import? with
    | none => pure ()
    | some (kind, file) =>
      match file.literal? with
      | some path => modify (⟨kind, path, e.location⟩ :: ·)
      | none => throw (kind.keyword ++ " of a non-literal path")

/-- The imports of an expression that is no deeper than `limit`, in order. -/
def Expr.imports (limit : Nat) (e : Expr) : Except WalkError (List ImportRef) :=
  match (e.walk importHook limit).run [] with
  | (.ok (), found) => .ok found.reverse
  | (.error error, _) => .error error

end JsonnetTree
