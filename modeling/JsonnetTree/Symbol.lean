import JsonnetTree.Depth
import JsonnetTree.Expr.Recursion

/-!
# Symbols

A symbol is a name that a variable or an index can refer to: a local binding, a local binding
of an object, or a field. It comes with the names of the fields that lead to it.
-/

namespace JsonnetTree

/-- What introduces a symbol. -/
inductive SymbolKind where
  | localBind
  | objectLocal
  | field
  deriving DecidableEq, Inhabited, Repr

/-- The name of a kind of symbol in a report. -/
def SymbolKind.tag : SymbolKind → String
  | .localBind => "local"
  | .objectLocal => "object_local"
  | .field => "field"

/-- A name that can be referred to. `context` holds the names of the fields around it,
the outermost first. -/
structure Symbol where
  identifier : String
  kind : SymbolKind
  context : List String
  location : Location
  deriving DecidableEq, Inhabited, Repr

/-- The context as a path from the root. -/
def Symbol.path (s : Symbol) : String :=
  ".".intercalate ("$" :: s.context)

/-- The line of a symbol in a listing. -/
def Symbol.line (s : Symbol) : String :=
  s.path ++ "\t" ++ s.kind.tag ++ "\t" ++ s.identifier ++ "\t" ++ s.location.render ++ "\n"

/-- The symbols below an expression, given the context. -/
abbrev Symbols := List String → List Symbol

/-- The symbol of a binding. A binding without a location takes that of its owner. -/
def Binding.symbol {α : Type} (kind : SymbolKind) (owner : Location) (context : List String)
    (b : Binding α) : Symbol :=
  ⟨b.name, kind, context, b.location.orOwner owner⟩

namespace LoweredField

variable (d : LoweredField (Expr × Symbols)) (context : List String)

/-- The symbol of a field with a literal name. -/
def symbol? (owner : Location) : Option Symbol :=
  d.name.1.literal?.map fun name => ⟨name, .field, context, d.location.orOwner owner⟩

/-- The symbols in the name of a field that is not literal. -/
def nameSymbols : List Symbol :=
  if d.name.1.literal?.isSome then [] else d.name.2 context

/-- The symbols in the body of a field. A literal name joins their context. -/
def bodySymbols : List Symbol :=
  d.body.2 (context ++ d.name.1.literal?.toList)

end LoweredField

/-- The symbols of a form: first its own, then those below it. -/
def Form.symbols (owner : Location) (form : Form (Expr × Symbols)) (context : List String) :
    List Symbol :=
  match form with
  | .loweredObject o =>
    o.locals.map (·.symbol .objectLocal owner context) ++
      o.fields.filterMap (·.symbol? context owner) ++
      o.fields.flatMap (·.nameSymbols context) ++
      o.fields.flatMap (·.bodySymbols context) ++
      o.locals.flatMap (·.body.2 context) ++
      o.asserts.flatMap (·.2 context)
  | .locals binds _ =>
    binds.map (·.symbol .localBind owner context) ++ form.children.flatMap (·.2 context)
  | _ => form.children.flatMap (·.2 context)

/-- All symbols of an expression. -/
def Expr.symbols (e : Expr) : List Symbol :=
  Expr.para (fun e form => form.symbols e.location) e []

/-- All symbols of an expression that is no deeper than `limit`. -/
def Expr.extractSymbols (limit : Nat) (e : Expr) : Except WalkError (List Symbol) := do
  e.checkDepth limit
  return e.symbols

end JsonnetTree
