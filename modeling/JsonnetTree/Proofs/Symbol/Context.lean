import JsonnetTree.Proofs.Expansion.Basic
import JsonnetTree.Proofs.Expr.Occurrences
import JsonnetTree.Symbol

/-!
# Symbols and their contexts

The context of a symbol is made of names that are met on the way to it. A `Naming` says under which
names the children of expressions stand, and gives the names along a path. Collecting something at
every place with its names is the same as collecting it level by level (`Naming.collect_eq`), which
is how symbols are computed (`Expr.symbolsIn_eq`).
-/

namespace JsonnetTree

/-- The children of expressions, each with the name that it stands under, if any. -/
structure Naming where
  children : Expr → List (Option String × Expr)
  map_snd (e : Expr) : (children e).map (·.2) = e.children

namespace Naming

variable (naming : Naming)

/-- The names along a path, the outermost first. -/
def context : Expr → List Nat → List String
  | _, [] => []
  | e, i :: rest =>
    (naming.children e)[i]?.elim [] fun c => c.1.toList ++ context c.2 rest

/-- What is found at all places of an expression, given the names that lead to each. -/
def collect {α : Type} (found : Expr → List String → List α) (e : Expr) (context : List String) :
    List α :=
  e.occurrences.flatMap fun o => found o.expr (context ++ naming.context e o.path)

/-- An expression comes first, and then its children, whose names join the context. -/
theorem collect_eq {α : Type} (found : Expr → List String → List α) (e : Expr)
    (context : List String) :
    naming.collect found e context = found e context ++
      (naming.children e).flatMap fun c => naming.collect found c.2 (context ++ c.1.toList) := by
  have hchild : ∀ c ∈ (naming.children e).zipIdx,
      (((c.1.2.occurrences.map (·.under [c.2])).flatMap fun o =>
        found o.expr (context ++ naming.context e o.path))) =
        naming.collect found c.1.2 (context ++ c.1.1.toList) := by
    intro c hc
    have hname (path : List Nat) :
        naming.context e (c.2 :: path) = c.1.1.toList ++ naming.context c.1.2 path := by
      rw [Naming.context, List.mem_zipIdx_iff_getElem?.mp hc]
      rfl
    rw [List.flatMap_map, collect]
    simp only [Occurrence.under, List.cons_append, List.nil_append, hname, List.append_assoc]
  rw [collect, Expr.occurrences_eq, List.flatMap_cons, List.flatMap_assoc, ← naming.map_snd e,
    List.zipIdx_map, List.flatMap_map]
  congr 1
  · rw [Naming.context, List.append_nil]
  · refine (List.flatMap_congr hchild).trans ?_
    conv_rhs => rw [← List.zipIdx_map_fst 0 (naming.children e), List.flatMap_map]

end Naming

/-! ## Symbols level by level -/

namespace Expr

variable {e : Expr} {context : List String}

/-- The symbols of an expression in a context. -/
def symbolsIn (e : Expr) (context : List String) : List Symbol :=
  Expr.para (fun e form => form.symbols e.location) e context

/-- The symbols of an expression are those of its form, in which every subexpression comes with its
own symbols. -/
theorem symbolsIn_eq (e : Expr) (context : List String) :
    e.symbolsIn context =
      (e.form.map fun part => (part, part.symbolsIn)).symbols e.location context := by
  rw [symbolsIn, para_eq]
  rfl

/-- Only its location and its form matter to the symbols of an expression. -/
theorem symbolsIn_congr {a : Expr} (hlocation : a.location = e.location) (hform : a.form = e.form) :
    a.symbolsIn context = e.symbolsIn context := by
  rw [symbolsIn_eq, symbolsIn_eq, hlocation, hform]

/-- An expression that is no lowered object has the symbols of its bindings and of its children. -/
theorem symbolsIn_of_other (h : ∀ o, e.form ≠ .loweredObject o) (context : List String) :
    e.symbolsIn context =
      e.bindingsHere.map (·.symbol .localBind e.location context) ++
        e.children.flatMap (·.symbolsIn context) := by
  have hchildren : (e.form.map fun part => (part, part.symbolsIn)).children.flatMap (·.2 context) =
      e.children.flatMap (·.symbolsIn context) := by
    rw [Form.children_map, List.flatMap_map, children]
  rw [symbolsIn_eq, ← hchildren, bindingsHere]
  cases hform : e.form with
  | loweredObject o => exact absurd hform (h o)
  | locals binds body => simp [Form.map, Form.symbols, Binding.map, Binding.symbol]
  | _ => rfl

/-- There is nothing to refer to in a string. -/
theorem symbolsIn_of_literal (h : e.literal?.isSome) (context : List String) :
    e.symbolsIn context = [] := by
  rw [symbolsIn_eq]
  unfold literal? at h
  split at h
  next s hform => rw [hform]; rfl
  next => cases h

end Expr

/-- The symbols of a lowered object: first its own, then those below it. -/
def LoweredObject.symbolsIn (o : LoweredObject Expr) (owner : Location) (context : List String) :
    List Symbol :=
  o.locals.map (·.symbol .objectLocal owner context) ++
    o.fields.filterMap (fun d => d.name.literal?.map fun name =>
      ⟨name, .field, context, d.location.orOwner owner⟩) ++
    o.fields.flatMap (·.name.symbolsIn context) ++
    o.fields.flatMap (fun d => d.body.symbolsIn (context ++ d.name.literal?.toList)) ++
    o.locals.flatMap (·.body.symbolsIn context) ++
    o.asserts.flatMap (·.symbolsIn context)

/-- The symbols of an expression that is a lowered object. -/
theorem Expr.symbolsIn_of_loweredObject {e : Expr} {o : LoweredObject Expr}
    (h : e.form = .loweredObject o) (context : List String) :
    e.symbolsIn context = o.symbolsIn e.location context := by
  have hname (d : LoweredField Expr) :
      (if d.name.literal?.isSome then [] else d.name.symbolsIn context) =
        d.name.symbolsIn context := by
    split
    next hliteral => exact (symbolsIn_of_literal hliteral context).symm
    next => rfl
  rw [symbolsIn_eq, h, LoweredObject.symbolsIn]
  simp only [Form.map, Form.symbols, List.map_map, List.filterMap_map, List.flatMap_map,
    LoweredField.nameSymbols, LoweredField.map, hname]
  rfl

end JsonnetTree
