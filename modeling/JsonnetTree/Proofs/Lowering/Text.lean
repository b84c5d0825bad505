import JsonnetTree.Proofs.Layout.Printed
import JsonnetTree.Proofs.Symbol.Source

/-!
# The text of lowered objects

Object literals and lowered objects are printed by rules of their own. Lowering forgets fodder,
turns methods into functions and puts local bindings first, so the two texts differ in general. They
are the same, piece by piece, if every object literal is written as a lowered object is
(`ObjectLiteral.IsPlain`).
-/

namespace JsonnetTree

variable {α β : Type}

/-! ## Object literals written as lowered objects are -/

/-- A member without parameters and without fodder of its own. -/
@[mk_iff] structure Member.IsBare (m : Member α) : Prop where
  method : m.method = none
  fodder1 : m.fodder1 = []
  fodder2 : m.fodder2 = []
  opFodder : m.opFodder = []
  commaFodder : m.commaFodder = []

/-- A field with an expression as its name, in brackets if and only if it is no string literal. The
name has no fodder in front. -/
@[mk_iff] structure Member.IsPlainField (m : Member Expr) : Prop where
  named : m.kind = .fieldStr ∧ (∀ name ∈ m.expr1, name.literal?.isSome = true) ∨
    m.kind = .fieldExpr ∧ ∀ name ∈ m.expr1, name.literal?.isSome = false
  fodder : ∀ name ∈ m.expr1, name.fodder = []

/-- An object literal without fodder, with its local bindings first and nothing but plain fields
after them. -/
@[mk_iff] structure ObjectLiteral.IsPlain (o : ObjectLiteral Expr) : Prop where
  bare : ∀ m ∈ o.members, m.IsBare
  fields : ∀ m ∈ o.members.dropWhile (·.isLocal), m.IsPlainField
  trailingComma : o.trailingComma = false
  closeFodder : o.closeFodder = []

instance (m : Member Expr) : Decidable m.IsBare :=
  decidable_of_iff _ m.isBare_iff.symm

instance (m : Member Expr) : Decidable m.IsPlainField :=
  decidable_of_iff _ m.isPlainField_iff.symm

instance (o : ObjectLiteral Expr) : Decidable o.IsPlain :=
  decidable_of_iff _ o.isPlain_iff.symm

/-- The object literal that an expression is, if it is one. -/
def Expr.literalObject? (e : Expr) : Option (ObjectLiteral Expr) :=
  match e.form with
  | .object o => some o
  | _ => none

/-- The object literals that can be reached can be listed. -/
theorem Expr.forall_object_iff {e : Expr} {P : ObjectLiteral Expr → Prop} :
    (∀ a o, e.Reaches a → a.form = .object o → P o) ↔
      ∀ o ∈ e.preorder.filterMap literalObject?, P o := by
  have hform : ∀ {a : Expr} {o}, a.literalObject? = some o ↔ a.form = .object o := by
    intro a o
    unfold literalObject?
    cases a.form <;> simp
  simp only [List.mem_filterMap, mem_preorder_iff, hform]
  grind

/-! ## What the text knows of an expression -/

/-- All that is used of a subexpression to print the form around it: its text, and whether it is a
string literal. -/
def Operand.sketch (o : Operand) : Operand :=
  (if o.1.literal?.isSome then Build.string "" else Build.null, o.2)

/-- A list of changed items is printed by changing each item first. -/
theorem printList_map (print : Bool → β → List Piece) (f : α → β) (first : Bool) (as : List α) :
    printList print first (as.map f) = printList (fun first a => print first (f a)) first as := by
  induction as generalizing first with
  | nil => rfl
  | cons a rest ih => rw [List.map_cons, printList, printList, ih]

section Sketch

/-- A sketch has the text of the subexpression. -/
@[simp] theorem Operand.sketch_snd (o : Operand) : o.sketch.2 = o.2 := rfl

/-- A sketch tells a string literal. -/
@[simp] theorem Operand.isSome_literal?_sketch (o : Operand) :
    o.sketch.1.literal?.isSome = o.1.literal?.isSome := by
  cases h : o.1.literal?.isSome <;> rw [sketch, h] <;> rfl

/-- A subexpression that may be missing is printed by its sketch. -/
@[simp] theorem printOption_map_sketch (o : Option Operand) (crowded : Bool) :
    printOption (o.map Operand.sketch) crowded = printOption o crowded := by
  cases o <;> rfl

/-- A list element is printed by its sketch. -/
@[simp] theorem Element.pieces_map_sketch (pad first : Bool) (e : Element Operand) :
    (e.map Operand.sketch).pieces pad first = e.pieces pad first := rfl

/-- An argument passed by name is printed by its sketch. -/
@[simp] theorem NamedArgument.pieces_map_sketch (first : Bool) (a : NamedArgument Operand) :
    (a.map Operand.sketch).pieces first = a.pieces first := rfl

/-- Arguments are printed by their sketches. -/
@[simp] theorem Arguments.pieces_map_sketch (a : Arguments Operand) :
    (a.map Operand.sketch).pieces = a.pieces := by
  simp [Arguments.pieces, Arguments.map, printList_map]

/-- A parameter is printed by the sketch of its default value. -/
@[simp] theorem Parameter.pieces_map_sketch (first : Bool) (p : Parameter Operand) :
    (p.map Operand.sketch).pieces first = p.pieces first := by
  cases hfallback : p.fallback <;> simp [Parameter.pieces, Parameter.map, hfallback]

/-- Parameters are printed by the sketches of their default values. -/
@[simp] theorem Parameters.pieces?_map_sketch (ps : Option (Parameters Operand)) :
    Parameters.pieces? (ps.map (·.map Operand.sketch)) = Parameters.pieces? ps := by
  cases ps <;> simp [Parameters.pieces?, Parameters.pieces, Parameters.map, printList_map]

/-- A binding is printed by the sketches of its expressions. -/
@[simp] theorem Binding.pieces_map_sketch (first : Bool) (b : Binding Operand) :
    (b.map Operand.sketch).pieces first = b.pieces first := by
  simp [Binding.pieces, Binding.map]

/-- A condition is printed by its sketch. -/
@[simp] theorem Condition.pieces_map_sketch (c : Condition Operand) :
    (c.map Operand.sketch).pieces = c.pieces := rfl

/-- A clause is printed by the sketches of its expressions. -/
@[simp] theorem Clause.pieces_map_sketch (c : Clause Operand) :
    (c.map Operand.sketch).pieces = c.pieces := by
  simp [Clause.pieces, Clause.map, List.flatMap_map]

/-- Clauses are printed by the sketches of their expressions. -/
@[simp] theorem Clauses.pieces_map_sketch (cs : Clauses Operand) :
    (cs.map Operand.sketch).pieces = cs.pieces := by
  induction cs with
  | outermost c => simp [Clauses.map, Clauses.pieces]
  | inside outer c ih => simp [Clauses.map, Clauses.pieces, ih]

/-- A member is printed by the sketches of its expressions. -/
@[simp] theorem Member.pieces_map_sketch (pad first : Bool) (m : Member Operand) :
    (m.map Operand.sketch).pieces pad first = m.pieces pad first := by
  cases hmessage : m.expr3 <;>
    simp [Member.pieces, Member.map, Member.valuePieces, Member.idPieces, hmessage]

namespace LoweredObject

/-- A local binding of a lowered object is printed by the sketches of its expressions. -/
@[simp] theorem localPieces_map_sketch (pad first : Bool) (b : Binding Operand) :
    localPieces pad first (b.map Operand.sketch) = localPieces pad first b := by
  simp [localPieces, Binding.map]

/-- A field is printed by its parts, and what counts of its name is whether it is a string. -/
theorem fieldPieces_eq (pad first : Bool) (d : LoweredField Operand) :
    fieldPieces pad first d =
      (if d.name.1.literal?.isSome then d.name.2 (!first || pad)
        else fill [] (!first || pad) true ++ [.mark "["] ++ d.name.2 false ++ [.mark "]"]) ++
      (if d.plusSuper then [.mark "+"] else []) ++ [.mark d.hide.symbol] ++ d.body.2 true := by
  unfold fieldPieces Expr.literal?
  cases d.name.1.form <;> rfl

/-- A field of a lowered object is printed by the sketches of its name and its value. -/
@[simp] theorem fieldPieces_map_sketch (pad first : Bool) (d : LoweredField Operand) :
    fieldPieces pad first (d.map Operand.sketch) = fieldPieces pad first d := by
  simp [fieldPieces_eq, LoweredField.map]

/-- An assertion of a lowered object is printed by its sketch. -/
@[simp] theorem assertPieces_sketch (pad first : Bool) (o : Operand) :
    assertPieces pad first o.sketch = assertPieces pad first o := rfl

end LoweredObject

/-- The text of a form does not show more of its subexpressions than their sketches. -/
theorem Form.pieces_map_sketch (form : Form Operand) (options : LayoutOptions) (crowded : Bool) :
    (form.map Operand.sketch).pieces options crowded = form.pieces options crowded := by
  cases form with
  | apply | array | object | objectComp => simp [map, pieces, printList_map]
  | loweredObject => simp [map, pieces, LoweredObject.pieces, printList_map]
  | assert a => cases hmessage : a.message <;> simp [map, pieces, hmessage]
  | conditional c => cases hno : c.no <;> simp [map, pieces, hno]
  | index i => cases hid : i.id <;> simp [map, pieces, printAccess, hid]
  | superIndex s => cases hid : s.id <;> simp [map, pieces, printAccess, hid]
  | locals binds body =>
    cases binds with
    | nil => rfl
    | cons b rest =>
      have hbinds := printList_map Binding.pieces (·.map Operand.sketch) true (b :: rest)
      simpa [map, pieces] using hbinds
  | function params body =>
    have hparams := Parameters.pieces?_map_sketch (some params)
    simpa [map, pieces, Parameters.pieces?] using hparams
  | _ => simp [map, pieces]

end Sketch

/-! ## Printing lists item by item -/

/-- Lists whose items are printed the same in pairs are printed the same. -/
theorem printList_of_forall₂ {print : Bool → α → List Piece} {print' : Bool → β → List Piece}
    {as : List α} {bs : List β}
    (h : List.Forall₂ (fun a b => ∀ first, print first a = print' first b) as bs) (first : Bool) :
    printList print first as = printList print' first bs := by
  induction h generalizing first with
  | nil => rfl
  | cons hab _ ih => rw [printList, printList, hab, ih]

/-- A list can be printed in two parts. -/
theorem printList_append (print : Bool → α → List Piece) (first : Bool) (as bs : List α) :
    printList print first (as ++ bs) =
      printList print first as ++ printList print (first && as.isEmpty) bs := by
  induction as generalizing first with
  | nil => simp [printList]
  | cons a rest ih => simp [printList, ih]

/-! ## Lowered members -/

/-- An expression with its text. -/
def Expr.operand (options : LayoutOptions) (e : Expr) : Operand :=
  (e, e.pieces options)

/-- Lowering keeps the fodder. -/
theorem Expr.fodder_lowered (e : Expr) : e.lowered.fodder = e.fodder := by
  cases h : e.lower with
  | error => rw [lowered, h]; rfl
  | ok l => rw [lowered_of_lower h, fodder_of_lower h]

/-- To drop the fodder of an expression without fodder is to keep the expression. -/
theorem Expr.with_fodder_of_eq_nil {e : Expr} (h : e.fodder = []) :
    { e with fodder := [] } = e := by
  cases e
  rw [← h]

namespace LoweredObject

/-- The object with one local binding. -/
def ofLocal (b : Binding Expr) : LoweredObject Expr :=
  { empty with locals := [b] }

/-- The object with one field. -/
def ofField (d : LoweredField Expr) : LoweredObject Expr :=
  { empty with fields := [d] }

/-- Objects with one field each are put together to one with all fields. -/
theorem foldr_append_ofField (fields : List (LoweredField Expr)) :
    (fields.map ofField).foldr append empty = ⟨[], fields, []⟩ := by
  induction fields with
  | nil => rfl
  | cons d rest ih =>
    rw [List.map_cons, List.foldr_cons, ih]
    rfl

/-- Objects with one local binding each are put in front of an object. -/
theorem foldr_append_ofLocal (locals : List (Binding Expr)) (o : LoweredObject Expr) :
    (locals.map ofLocal).foldr append o = { o with locals := locals ++ o.locals } := by
  induction locals with
  | nil => rfl
  | cons b rest ih =>
    rw [List.map_cons, List.foldr_cons, ih]
    rfl

end LoweredObject

namespace Member

variable {options : LayoutOptions} {owner : Location} {m : Member Expr} {part : LoweredObject Expr}
  {other : Expr → Expr}

/-- The lowered value of a member without parameters is its lowered value expression. -/
theorem IsBare.loweredValue_eq_ok {value : Expr} (hm : m.IsBare)
    (h : (m.mapChildren Expr.lowered other).loweredValue = .ok value) :
    ∃ body, m.expr2 = some body ∧ value = body.lowered := by
  obtain ⟨body, hbody, ⟨-, rfl⟩ | ⟨params, hparams, -⟩⟩ := Member.loweredValue_eq_ok h
  · obtain ⟨e, he, rfl⟩ := Option.map_eq_some_iff.mp hbody
    exact ⟨e, he, rfl⟩
  · simp [mapChildren, hm.method] at hparams

/-- The name of a plain field is an expression. -/
theorem IsPlainField.hasNameExpr (hm : m.IsPlainField) : m.hasNameExpr = true := by
  rcases hm.named with ⟨hkind, -⟩ | ⟨hkind, -⟩ <;> simp [Member.hasNameExpr, hkind]

/-- The lowered name of a plain field is its lowered name expression. -/
theorem IsPlainField.loweredName_eq_ok {name : Expr} (hm : m.IsPlainField)
    (h : (m.mapChildren Expr.lowered other).loweredName = .ok name) :
    ∃ e, m.expr1 = some e ∧ name = e.lowered := by
  have hname := hm.hasNameExpr
  obtain ⟨id, hkind, -, -⟩ | ⟨e', -, he', rfl⟩ := Member.loweredName_eq_ok h
  · simp [Member.hasNameExpr, show m.kind = .fieldId from hkind] at hname
  · rw [mapChildren, if_pos hname] at he'
    obtain ⟨e, he, rfl⟩ := Option.map_eq_some_iff.mp he'
    -- Lowering drops the fodder of a name, of which there is none.
    have hfodder : e.lowered.fodder = [] := by rw [e.fodder_lowered, hm.fodder e he]
    exact ⟨e, he, Expr.with_fodder_of_eq_nil hfodder⟩

/-- A local binding without fodder is printed as the lowered one. -/
theorem exists_ofLocal_of_lower (hm : m.IsBare) (hlocal : m.isLocal = true)
    (hprint : ∀ e ∈ m.exprs, e.lowered.pieces options = e.pieces options)
    (h : (m.mapChildren Expr.lowered other).lower owner = .ok part) :
    ∃ b, part = LoweredObject.ofLocal b ∧ ∀ pad first,
      LoweredObject.localPieces pad first (b.map (Expr.operand options)) =
        (m.map (Expr.operand options)).pieces pad first := by
  have hkind : m.kind = .localBind := by simpa [isLocal] using hlocal
  obtain ⟨-, name, value, hid, hvalue, rfl⟩ | ⟨hassert, -⟩ | ⟨hfield, -⟩ := lower_eq_ok_iff.mp h
  · obtain ⟨body, hbody, rfl⟩ := hm.loweredValue_eq_ok hvalue
    have hbodyPieces := hprint body (mem_exprs_of_eq_some (.inl hbody))
    have hid : m.id = some name := hid
    refine ⟨_, rfl, fun pad first => ?_⟩
    simp [LoweredObject.localPieces, Member.pieces, Member.map, Binding.map, idPieces, printOption,
      Expr.operand, Parameters.pieces?, fill, fillFrom, hkind, hid, hbody, hbodyPieces, hm.method,
      hm.fodder1, hm.fodder2, hm.opFodder, hm.commaFodder]
  · simp [mapChildren, hkind] at hassert
  · simp [mapChildren, hasNameExpr, hkind] at hfield

/-- A plain field is printed as the lowered one. -/
theorem exists_ofField_of_lower (hm : m.IsBare) (hfield : m.IsPlainField)
    (hprint : ∀ e ∈ m.exprs, e.lowered.pieces options = e.pieces options)
    (h : (m.mapChildren Expr.lowered other).lower owner = .ok part) :
    ∃ d, part = LoweredObject.ofField d ∧ ∀ pad first,
      LoweredObject.fieldPieces pad first (d.map (Expr.operand options)) =
        (m.map (Expr.operand options)).pieces pad first := by
  have hname := hfield.hasNameExpr
  obtain ⟨hlocal, -⟩ | ⟨hassert, -⟩ | ⟨-, name, value, hname', hvalue, rfl⟩ := lower_eq_ok_iff.mp h
  · simp [hasNameExpr, show m.kind = .localBind from hlocal] at hname
  · simp [hasNameExpr, show m.kind = .assert from hassert] at hname
  · obtain ⟨e, he, rfl⟩ := hfield.loweredName_eq_ok hname'
    obtain ⟨body, hbody, rfl⟩ := hm.loweredValue_eq_ok hvalue
    have hnamePieces := hprint e (mem_exprs_of_eq_some (.inr (.inr ⟨hname, he⟩)))
    have hbodyPieces := hprint body (mem_exprs_of_eq_some (.inl hbody))
    refine ⟨_, rfl, fun pad first => ?_⟩
    rw [LoweredObject.fieldPieces_eq]
    rcases hfield.named with ⟨hkind, hstring⟩ | ⟨hkind, hstring⟩ <;>
      simp [Member.pieces, valuePieces, Member.map, LoweredField.map, printOption, mapChildren,
        Expr.operand, Parameters.pieces?, fill, fillFrom, hkind, he, hbody, hnamePieces,
        hbodyPieces, Expr.literal?_lowered, hstring e he, hm.method, hm.fodder1, hm.fodder2,
        hm.opFodder, hm.commaFodder]

end Member

/-! ## Lowered objects and trees -/

namespace ObjectLiteral

variable {o : ObjectLiteral Expr} {lo : LoweredObject Expr} {options : LayoutOptions}
  {owner : Location}

/-- The local bindings of a plain object literal and after them its fields are lowered and printed
one by one. -/
theorem IsPlain.exists_of_lower (ho : o.IsPlain)
    (hprint : ∀ e ∈ Member.allExprs o.members, e.lowered.pieces options = e.pieces options)
    (h : lower ⟨o.members.map (·.mapChildren Expr.lowered id), o.trailingComma,
      o.closeFodder⟩ owner = .ok lo) :
    ∃ ls fs locals fields, o.members = ls ++ fs ∧ lo = ⟨[], fields, locals⟩ ∧
      List.Forall₂ (fun b m => ∀ pad first,
        LoweredObject.localPieces pad first (b.map (Expr.operand options)) =
          (m.map (Expr.operand options)).pieces pad first) locals ls ∧
      List.Forall₂ (fun d m => ∀ pad first,
        LoweredObject.fieldPieces pad first (d.map (Expr.operand options)) =
          (m.map (Expr.operand options)).pieces pad first) fields fs := by
  obtain ⟨parts, hparts, h⟩ := Outcome.bind_eq_ok h
  obtain rfl := Except.ok.inj h
  -- The members are taken apart where the local bindings end, and so is the list of results.
  obtain ⟨ls, fs, hmembers, hls, hfs⟩ : ∃ ls fs, o.members = ls ++ fs ∧
      (∀ m ∈ ls, m.isLocal = true) ∧ ∀ m ∈ fs, m.IsPlainField :=
    ⟨_, _, List.takeWhile_append_dropWhile.symm, fun m hm => List.mem_takeWhile_imp hm, ho.fields⟩
  have hbare := ho.bare
  have hprint : ∀ m ∈ o.members, ∀ e ∈ m.exprs, e.lowered.pieces options = e.pieces options :=
    fun m hm e he => hprint e (Member.mem_allExprs hm he)
  simp only [hmembers, List.forall_mem_append] at hbare hprint
  simp only [hmembers, List.map_append, List.mapM_append, List.mapM_map] at hparts
  obtain ⟨lparts, hlparts, hparts⟩ := Outcome.bind_eq_ok hparts
  obtain ⟨fparts, hfparts, hparts⟩ := Outcome.bind_eq_ok hparts
  obtain rfl := Except.ok.inj hparts
  obtain ⟨locals, rfl, hlocals⟩ := Outcome.exists_map_of_mapM
    (fun m hm _ => Member.exists_ofLocal_of_lower (hbare.1 m hm) (hls m hm) (hprint.1 m hm)) hlparts
  obtain ⟨fields, rfl, hfields⟩ := Outcome.exists_map_of_mapM
    (fun m hm _ => Member.exists_ofField_of_lower (hbare.2 m hm) (hfs m hm) (hprint.2 m hm)) hfparts
  refine ⟨ls, fs, locals, fields, hmembers, ?_, hlocals.flip, hfields.flip⟩
  rw [List.foldr_append, LoweredObject.foldr_append_ofField, LoweredObject.foldr_append_ofLocal,
    List.append_nil]

/-- A plain object literal is printed as the lowered object, if its expressions are. -/
theorem IsPlain.pieces_lower (ho : o.IsPlain)
    (hprint : ∀ e ∈ Member.allExprs o.members, e.lowered.pieces options = e.pieces options)
    (h : lower ⟨o.members.map (·.mapChildren Expr.lowered id), o.trailingComma,
      o.closeFodder⟩ owner = .ok lo) (crowded : Bool) :
    ((Form.loweredObject lo).map (Expr.operand options)).pieces options crowded =
      ((Form.object o).map (Expr.operand options)).pieces options crowded := by
  obtain ⟨ls, fs, locals, fields, hmembers, rfl, hlocals, hfields⟩ := ho.exists_of_lower hprint h
  have hnoLocals : locals.isEmpty = ls.isEmpty := by cases hlocals <;> rfl
  have hnoFields : fields.isEmpty = fs.isEmpty := by cases hfields <;> rfl
  have hnothing : o.members.isEmpty = (ls.isEmpty && fs.isEmpty) := by
    rw [hmembers]
    cases ls <;> rfl
  have hlocals := fun pad => printList_of_forall₂ (hlocals.imp fun _ _ h => h pad)
  have hfields := fun pad => printList_of_forall₂ (hfields.imp fun _ _ h => h pad)
  simp only [Form.map, Form.pieces, LoweredObject.pieces, List.isEmpty_map, hnothing, printList_map]
  simp [printList_append, printList, printTrailing, hmembers, hlocals, hfields, hnoLocals,
    hnoFields, ho.trailingComma, ho.closeFodder]

end ObjectLiteral

/-- Changing the children of a form does not change whether it starts with one. -/
theorem Form.isNone_leftmost?_mapChildren (child other : α → β) (form : Form α) :
    (form.mapChildren child other).leftmost?.isNone = form.leftmost?.isNone := by
  cases form <;> rfl

/-- A form with lowered children is printed as before, if the children are. -/
theorem Form.pieces_mapChildren_lowered {options : LayoutOptions} {form : Form Expr}
    (h : ∀ c ∈ form.children, c.lowered.pieces options = c.pieces options) (crowded : Bool) :
    ((form.mapChildren Expr.lowered id).map (Expr.operand options)).pieces options crowded =
      (form.map (Expr.operand options)).pieces options crowded := by
  have hsketch : ∀ c ∈ form.children,
      (c.lowered.operand options).sketch = (c.operand options).sketch := by
    intro c hc
    unfold Operand.sketch Expr.operand
    rw [h c hc, Expr.literal?_lowered]
  -- Subexpressions that are no children are kept, so the sketches of the children decide.
  have hforms : ((form.mapChildren Expr.lowered id).map (Expr.operand options)).map Operand.sketch =
      (form.map (Expr.operand options)).map Operand.sketch := by
    simp only [map_eq_mapChildren, mapChildren_mapChildren]
    exact mapChildren_congr hsketch
  rw [← pieces_map_sketch, hforms, pieces_map_sketch]

/-- Where all object literals are plain, an expression is printed as the lowered one. -/
theorem Expr.pieces_lower {e l : Expr}
    (hplain : ∀ a o, e.Reaches a → a.form = .object o → o.IsPlain) (h : e.lower = .ok l)
    (options : LayoutOptions) : l.pieces options = e.pieces options := by
  induction e using induct_children generalizing l with
  | h e ih =>
    have hchild : ∀ c ∈ e.children, c.lowered.pieces options = c.pieces options := by
      intro c hc
      obtain ⟨c', hc'⟩ := (lower_eq_ok_iff.mp h).1 c hc
      rw [lowered_of_lower hc']
      exact ih c hc (fun a o ha => hplain a o (.child hc ha)) hc'
    funext crowded
    rw [pieces_eq, pieces_eq]
    obtain ⟨o, lo, hform, hlower, rfl⟩ | ⟨-, rfl⟩ := lower_cases h
    · have hmembers : ∀ a ∈ Member.allExprs o.members,
          a.lowered.pieces options = a.pieces options := by
        simpa [children, hform, Form.children, Form.operands, Form.deferred] using hchild
      have hobject := (hplain e o (.refl e) hform).pieces_lower hmembers hlower crowded
      rw [hform]
      exact congrArg (fill e.fodder crowded true ++ ·) hobject
    · have hpieces := Form.pieces_mapChildren_lowered hchild crowded
      simp only [mapChildren, Form.isNone_leftmost?_mapChildren]
      exact congrArg (_ ++ ·) hpieces

namespace Tree

/-- Where every object literal of a tree is plain, the lowered tree has the text of the tree, piece
by piece, whatever the options and whatever stands before it. -/
theorem pieces_root_lower {t lowered : Tree} {limit : Nat}
    (hplain : ∀ e o, t.root.Reaches e → e.form = .object o → o.IsPlain)
    (h : t.lower limit = .ok lowered) (options : LayoutOptions) (crowded : Bool) :
    lowered.root.pieces options crowded = t.root.pieces options crowded := by
  obtain ⟨-, -, root, hroot, rfl⟩ := lower_eq_ok h
  exact congrFun (Expr.pieces_lower hplain hroot options) crowded

/-- An object with a local binding, a field named by a string and one with a computed name, which
all hold objects of their own. -/
theorem pieces_root_lower_nested :
    let inner : Expr := Build.object [Build.objectLocal "x" Build.self,
      Build.fieldStr "b" .hidden (Build.var "x")]
    let sum : Expr := Build.binary (Build.string "c") .plus (Build.var "z")
    let t : Tree := ⟨.raw, Build.object [
      Build.objectLocal "y" inner,
      Build.fieldStr "a" .inherit (Build.array [inner]),
      { Build.fieldExpr sum .visible inner with superSugar := true }], []⟩
    let text := "\x7blocal x = self, \"b\":: x\x7d"
    (∀ e o, t.root.Reaches e → e.form = .object o → o.IsPlain) ∧
      ∃ lowered, t.lower 9 = .ok lowered ∧
        lowered.root.pieces ⟨true, false⟩ true = t.root.pieces ⟨true, false⟩ true ∧
        Piece.render (t.root.pieces ⟨true, false⟩ true) =
          String.join [" \x7blocal y = ", text, ", \"a\": [ ", text, " ], [\"c\" + z]+::: ", text,
            "\x7d"] := by
  intro inner sum t text
  have hplain : ∀ e o, t.root.Reaches e → e.form = .object o → o.IsPlain := by
    have hall : ((t.root.preorder.filterMap Expr.literalObject?).all fun o => o.IsPlain) = true :=
      by decide +kernel
    exact Expr.forall_object_iff.mpr fun o ho => by simpa using List.all_eq_true.mp hall o ho
  let lowered : Tree := ⟨.lowered, t.root.lowered, []⟩
  have hlower : t.lower 9 = .ok lowered :=
    lower_of_root rfl (by decide +kernel) (by decide +kernel)
  have hpieces := pieces_root_lower hplain hlower ⟨true, false⟩ true
  exact ⟨hplain, lowered, hlower, hpieces, by decide +kernel⟩

end Tree

end JsonnetTree
