import JsonnetTree.Expr.RecursionLaws
import JsonnetTree.Layout.Printer

/-!
# What the printer prints, and in which order

Between its tokens a form is printed as a sequence of items: the fodder that it shows and the
subexpressions that it starts to print. `Form.items` gives this sequence, without the tokens and
the layout. All fodder that a form holds, shown or not, is listed by `Form.fodders`.
-/

namespace JsonnetTree

variable {α β : Type}

/-! ## Items -/

/-- Something that is printed between the tokens of a form. -/
inductive Item (α : Type) where
  | fodder (f : Fodder)
  | sub (a : α)
  /-- The place where printing stops because there is no name to bind. -/
  | noBinds

/-- The items of a list element. -/
def Element.items (e : Element α) : List (Item α) :=
  [.sub e.expr, .fodder e.commaFodder]

/-- The items of an argument passed by name. -/
def NamedArgument.items (a : NamedArgument α) : List (Item α) :=
  [.fodder a.nameFodder, .fodder a.eqFodder, .sub a.value, .fodder a.commaFodder]

/-- The items of arguments. -/
def Arguments.items (a : Arguments α) : List (Item α) :=
  a.positional.flatMap (·.items) ++ a.named.flatMap (·.items)

/-- The items of a parameter. -/
def Parameter.items (p : Parameter α) : List (Item α) :=
  [.fodder p.nameFodder] ++ p.fallback.toList.flatMap (fun a => [.fodder p.eqFodder, .sub a]) ++
    [.fodder p.commaFodder]

/-- The items of a parameter list. -/
def Parameters.listItems (ps : Parameters α) : List (Item α) :=
  [.fodder ps.leftFodder] ++ ps.items.flatMap (·.items) ++ [.fodder ps.rightFodder]

/-- The items of a parameter list that may be missing. -/
def Parameters.listItems? (ps? : Option (Parameters α)) : List (Item α) :=
  ps?.toList.flatMap (·.listItems)

/-- The items of a binding. -/
def Binding.items (b : Binding α) : List (Item α) :=
  [.fodder b.varFodder] ++ Parameters.listItems? b.params ++
    [.fodder b.eqFodder, .sub b.body, .fodder b.closeFodder]

/-- The items of a condition. -/
def Condition.items (c : Condition α) : List (Item α) :=
  [.fodder c.ifFodder, .sub c.expr]

/-- The items of a clause. -/
def Clause.items (c : Clause α) : List (Item α) :=
  [.fodder c.forFodder, .fodder c.varFodder, .fodder c.inFodder, .sub c.expr] ++
    c.conditions.flatMap (·.items)

/-- The items of clauses, those of the outermost first. -/
def Clauses.items (cs : Clauses α) : List (Item α) :=
  cs.toList.flatMap (·.items)

/-- The items of the value of a named field. -/
def Member.valueItems (m : Member α) : List (Item α) :=
  Parameters.listItems? m.method ++ [.fodder m.opFodder] ++ m.expr2.toList.map .sub

/-- The items of a member. -/
def Member.items (m : Member α) : List (Item α) :=
  (match m.kind with
    | .localBind =>
      [.fodder m.fodder1, .fodder m.fodder2] ++ Parameters.listItems? m.method ++
        [.fodder m.opFodder] ++ m.expr2.toList.map .sub
    | .fieldId => [.fodder m.fodder1] ++ m.valueItems
    | .fieldStr => m.expr1.toList.map .sub ++ m.valueItems
    | .fieldExpr =>
      [.fodder m.fodder1] ++ m.expr1.toList.map .sub ++ [.fodder m.fodder2] ++ m.valueItems
    | .assert =>
      [.fodder m.fodder1] ++ m.expr2.toList.map .sub ++
        m.expr3.toList.flatMap fun a => [.fodder m.opFodder, .sub a]) ++
    [.fodder m.commaFodder]

/-- The items of a binding in a lowered object, where its own fodder is left out. -/
def Binding.loweredItems (b : Binding α) : List (Item α) :=
  Parameters.listItems? b.params ++ [.sub b.body]

/-- The items of a field of a lowered object. -/
def LoweredField.items (d : LoweredField α) : List (Item α) :=
  [.sub d.name, .sub d.body]

/-- The items of a lowered object. -/
def LoweredObject.items (o : LoweredObject α) : List (Item α) :=
  o.locals.flatMap (·.loweredItems) ++ o.fields.flatMap (·.items) ++ o.asserts.map .sub

/-- The items of an access by name or by an expression. -/
def accessItems (id : Option String) (index : Option α) (fodder : Fodder) : List (Item α) :=
  match id with
  | some _ => [.fodder fodder]
  | none => index.toList.map .sub ++ [.fodder fodder]

/-- The items of a form, in the order in which they are printed. -/
def Form.items : Form α → List (Item α)
  | .apply a =>
    [.sub a.target, .fodder a.leftFodder] ++ a.arguments.items ++ [.fodder a.rightFodder] ++
      if a.tailStrict then [.fodder a.tailStrictFodder] else []
  | .applyBrace left right => [.sub left, .sub right]
  | .array a => a.elements.flatMap (·.items) ++ [.fodder a.closeFodder]
  | .arrayComp a =>
    [.sub a.body, .fodder a.commaFodder] ++ a.clauses.items ++ [.fodder a.closeFodder]
  | .assert a =>
    [.sub a.condition] ++ a.message.toList.flatMap (fun m => [.fodder a.colonFodder, .sub m]) ++
      [.fodder a.semicolonFodder, .sub a.rest]
  | .binary b => [.sub b.left, .fodder b.opFodder, .sub b.right]
  | .conditional c =>
    [.sub c.condition, .fodder c.thenFodder, .sub c.yes] ++
      c.no.toList.flatMap fun no => [.fodder c.elseFodder, .sub no]
  | .error message => [.sub message]
  | .function params body => params.listItems ++ [.sub body]
  | .importCode file => [.sub file]
  | .importText file => [.sub file]
  | .index i => [.sub i.target, .fodder i.leftFodder] ++ accessItems i.id i.index i.rightFodder
  | .slice s =>
    [.sub s.target, .fodder s.leftFodder] ++ s.start.toList.map .sub ++ [.fodder s.stopFodder] ++
      s.stop.toList.map .sub ++ [.fodder s.stepFodder] ++ s.step.toList.map .sub ++
      [.fodder s.rightFodder]
  | .inSuper i => [.sub i.index, .fodder i.inFodder, .fodder i.superFodder]
  | .locals [] _ => [.noBinds]
  | .locals binds body => binds.flatMap (·.items) ++ [.sub body]
  | .object o => o.members.flatMap (·.items) ++ [.fodder o.closeFodder]
  | .loweredObject o => o.items
  | .objectComp o => o.members.flatMap (·.items) ++ o.clauses.items ++ [.fodder o.closeFodder]
  | .parens inner closeFodder => [.sub inner, .fodder closeFodder]
  | .superIndex s => [.fodder s.dotFodder] ++ accessItems s.id s.index s.idFodder
  | .unary _ operand => [.sub operand]
  | .dollar | .boolean _ | .null | .number _ | .string _ | .self | .var _ => []

/-- The items of an expression. One that starts with a subexpression leaves the fodder in front to
that subexpression. -/
def Expr.items (e : Expr) : List (Item Expr) :=
  (if e.form.leftmost?.isNone then [.fodder e.fodder] else []) ++ e.form.items

/-! ## Replacements -/

/-- Changes the subexpression of an item. -/
def Item.map (f : α → β) : Item α → Item β
  | .fodder text => .fodder text
  | .sub a => .sub (f a)
  | .noBinds => .noBinds

section Map

variable (f : α → β)

/-- Fodder has no subexpressions to replace. -/
@[simp]
theorem Item.map_fodder (text : Fodder) : (Item.fodder text).map f = .fodder text := rfl

/-- A subexpression is replaced by another one. -/
@[simp]
theorem Item.map_sub (a : α) : (Item.sub a).map f = .sub (f a) := rfl

/-- There is nothing to replace where printing stops. -/
@[simp]
theorem Item.map_noBinds : Item.noBinds.map f = .noBinds := rfl

/-- Replacements in the items of a parameter. -/
@[simp]
theorem Parameter.items_map (p : Parameter α) : (p.map f).items = p.items.map (·.map f) := by
  cases hfallback : p.fallback <;> simp [items, map, hfallback]

/-- Replacements in the items of a parameter list. -/
@[simp]
theorem Parameters.listItems_map (ps : Parameters α) :
    (ps.map f).listItems = ps.listItems.map (·.map f) := by
  simp [listItems, map, List.map_flatMap, List.flatMap_map]

/-- Replacements in the items of a parameter list that may be missing. -/
@[simp]
theorem Parameters.listItems?_map (ps? : Option (Parameters α)) :
    Parameters.listItems? (ps?.map (·.map f)) = (Parameters.listItems? ps?).map (·.map f) := by
  cases ps? <;> simp [listItems?]

/-- Replacements in the items of a clause. -/
@[simp]
theorem Clause.items_map (c : Clause α) : (c.map f).items = c.items.map (·.map f) := by
  simp [items, map, Condition.items, Condition.map, List.map_flatMap, List.flatMap_map]

/-- Replacements in the items of clauses. -/
@[simp]
theorem Clauses.items_map (cs : Clauses α) : (cs.map f).items = cs.items.map (·.map f) := by
  simp [items, List.flatMap_map, List.map_flatMap]

/-- Replacements in the items of a member. -/
@[simp]
theorem Member.items_map (m : Member α) : (m.map f).items = m.items.map (·.map f) := by
  cases hkind : m.kind <;> cases hexpr3 : m.expr3 <;>
    simp [items, valueItems, map, hkind, hexpr3, Option.toList_map, Function.comp_def]

/-- A form whose subexpressions are replaced has the same items, with the replacements. -/
theorem Form.items_map (form : Form α) : (form.map f).items = form.items.map (·.map f) := by
  cases form with
  | apply a =>
    cases hstrict : a.tailStrict <;>
      simp [items, map, Arguments.items, Arguments.map, Element.items, Element.map,
        NamedArgument.items, NamedArgument.map, hstrict, List.map_flatMap,
        List.flatMap_map]
  | assert a => cases hmessage : a.message <;> simp [items, map, hmessage]
  | conditional c => cases hno : c.no <;> simp [items, map, hno]
  | index i => cases hid : i.id <;> simp [items, map, accessItems, hid, Option.toList_map, Function.comp_def]
  | superIndex s =>
    cases hid : s.id <;> simp [items, map, accessItems, hid, Option.toList_map, Function.comp_def]
  | locals binds body =>
    cases binds <;>
      simp [items, map, Binding.items, Binding.map, List.map_flatMap, List.flatMap_map]
  | loweredObject o =>
    simp [items, map, LoweredObject.items, Binding.loweredItems, Binding.map, LoweredField.items,
      LoweredField.map, List.map_flatMap, List.flatMap_map, Function.comp_def]
  | array | object | objectComp =>
    simp [items, map, Element.items, Element.map, List.map_flatMap, List.flatMap_map]
  | _ => simp [items, map, Option.toList_map, Function.comp_def]

end Map

/-! ## Fodder -/

/-- All fodder of an argument passed by name. -/
def NamedArgument.fodders (a : NamedArgument α) : List Fodder :=
  [a.nameFodder, a.eqFodder, a.commaFodder]

/-- All fodder of arguments. -/
def Arguments.fodders (a : Arguments α) : List Fodder :=
  a.positional.map (·.commaFodder) ++ a.named.flatMap (·.fodders)

/-- All fodder of a parameter. -/
def Parameter.fodders (p : Parameter α) : List Fodder :=
  [p.nameFodder, p.eqFodder, p.commaFodder]

/-- All fodder of a parameter list. -/
def Parameters.fodders (ps : Parameters α) : List Fodder :=
  ps.leftFodder :: ps.items.flatMap (·.fodders) ++ [ps.rightFodder]

/-- All fodder of a parameter list that may be missing. -/
def Parameters.fodders? (ps? : Option (Parameters α)) : List Fodder :=
  ps?.toList.flatMap (·.fodders)

/-- All fodder of a binding. -/
def Binding.fodders (b : Binding α) : List Fodder :=
  [b.varFodder, b.eqFodder] ++ Parameters.fodders? b.params ++ [b.closeFodder]

/-- All fodder of a clause. -/
def Clause.fodders (c : Clause α) : List Fodder :=
  [c.forFodder, c.varFodder, c.inFodder] ++ c.conditions.map (·.ifFodder)

/-- All fodder of clauses. -/
def Clauses.fodders : Clauses α → List Fodder
  | .outermost clause => clause.fodders
  | .inside outer clause => outer.fodders ++ clause.fodders

/-- All fodder of a member. -/
def Member.fodders (m : Member α) : List Fodder :=
  Parameters.fodders? m.method ++ [m.fodder1, m.fodder2, m.opFodder, m.commaFodder]

/-- All fodder that a form holds, apart from that of its subexpressions. -/
def Form.fodders : Form α → List Fodder
  | .apply a => [a.leftFodder] ++ a.arguments.fodders ++ [a.rightFodder, a.tailStrictFodder]
  | .array a => a.elements.map (·.commaFodder) ++ [a.closeFodder]
  | .arrayComp a => [a.commaFodder] ++ a.clauses.fodders ++ [a.closeFodder]
  | .assert a => [a.colonFodder, a.semicolonFodder]
  | .binary b => [b.opFodder]
  | .conditional c => [c.thenFodder, c.elseFodder]
  | .function params _ => params.fodders
  | .index i => [i.leftFodder, i.rightFodder]
  | .slice s => [s.leftFodder, s.stopFodder, s.stepFodder, s.rightFodder]
  | .inSuper i => [i.inFodder, i.superFodder]
  | .locals binds _ => binds.flatMap (·.fodders)
  | .object o => o.members.flatMap (·.fodders) ++ [o.closeFodder]
  | .loweredObject o => o.locals.flatMap (·.fodders)
  | .objectComp o => o.members.flatMap (·.fodders) ++ o.clauses.fodders ++ [o.closeFodder]
  | .parens _ closeFodder => [closeFodder]
  | .superIndex s => [s.dotFodder, s.idFodder]
  | .applyBrace _ _ | .error _ | .importCode _ | .importText _ | .unary _ _ => []
  | .dollar | .boolean _ | .null | .number _ | .string _ | .self | .var _ => []

/-- All fodder in an expression has a property. -/
inductive Expr.EveryFodder (P : Fodder → Prop) : Expr → Prop
  | intro {e : Expr} (hfodder : ∀ f ∈ e.fodder :: e.form.fodders, P f)
      (hparts : ∀ part ∈ e.form.parts, EveryFodder P part) : EveryFodder P e

/-- What holds of every fodder may be replaced by what follows from it. -/
theorem Expr.EveryFodder.mono {P Q : Fodder → Prop} {e : Expr} (h : e.EveryFodder P)
    (himp : ∀ f, P f → Q f) : e.EveryFodder Q := by
  induction h with
  | intro hfodder _ ih => exact .intro (fun f hf => himp f (hfodder f hf)) ih

namespace Expr

variable {P : Fodder → Prop} [DecidablePred P]

/-- Looks through all fodder in an expression for a property. -/
def everyFodder (P : Fodder → Prop) [DecidablePred P] : Expr → Bool :=
  para fun e form => (e.fodder :: e.form.fodders).all (P ·) && form.parts.all (·.2)

/-- All fodder in an expression has a property if this is found so. -/
theorem everyFodder_iff {e : Expr} : e.everyFodder P = true ↔ e.EveryFodder P := by
  induction e using induct with
  | h e ih =>
    have heq : e.everyFodder P =
        ((e.fodder :: e.form.fodders).all (P ·) && e.form.parts.all (·.everyFodder P)) := by
      rw [everyFodder, para_eq, Form.parts_map, List.all_map]
      rfl
    have hfodder : (e.fodder :: e.form.fodders).all (P ·) = true ↔
        ∀ f ∈ e.fodder :: e.form.fodders, P f := by simp
    have hparts : e.form.parts.all (·.everyFodder P) = true ↔
        ∀ part ∈ e.form.parts, part.EveryFodder P := by
      rw [List.all_eq_true]
      exact forall₂_congr ih
    rw [heq, Bool.and_eq_true, hfodder, hparts]
    constructor
    · rintro ⟨h, h'⟩
      exact .intro h h'
    · rintro ⟨h, h'⟩
      exact ⟨h, h'⟩

instance (e : Expr) : Decidable (e.EveryFodder P) :=
  decidable_of_iff _ everyFodder_iff

end Expr

/-! ## The printer -/

/-- The printer goes through clauses in the order in which they are written. -/
theorem Clauses.pieces_eq_flatMap (cs : Clauses Operand) :
    cs.pieces = cs.toList.flatMap Clause.pieces :=
  eq_flatMap_toList (fun _ => rfl) (fun _ _ => rfl) cs

/-- An expression is printed as its fodder and its form, in which every subexpression comes with
its own text. -/
theorem Expr.pieces_eq (options : LayoutOptions) (e : Expr) (crowded : Bool) :
    e.pieces options crowded =
      (if e.form.leftmost?.isNone then fill e.fodder crowded true else []) ++
        (e.form.map fun part => (part, part.pieces options)).pieces options crowded := by
  rw [pieces, para_eq]

end JsonnetTree
