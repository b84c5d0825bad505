import JsonnetTree.Import
import JsonnetTree.Proofs.Depth
import JsonnetTree.Proofs.Layout.Spacing
import JsonnetTree.Proofs.Lowering.Findings

/-!
# What a form writes of its children

The printer starts to print some subexpressions of a form, in an order of its own (`Form.written`).
If the form has a place in its text for each of its children, then these are the children, and all
but those of members come in the same order (`Form.WritesChildren`). So the printer looks into all
that can be reached. Where all fodder can be printed, it stops exactly if a local expression that
binds no name can be reached (`Tree.print_eq_noBinds_iff`).
-/

namespace JsonnetTree

variable {α β : Type}

/-! ## The subexpressions that are written -/

namespace Item

/-- The subexpressions among items, in order. -/
def subs (items : List (Item α)) : List α :=
  items.filterMap fun
    | .sub a => some a
    | .fodder _ | .noBinds => none

/-- The empty list has no subexpressions. -/
@[simp] theorem subs_nil : subs ([] : List (Item α)) = [] := rfl

/-- A subexpression comes before those that follow. -/
@[simp] theorem subs_sub (a : α) (rest : List (Item α)) : subs (.sub a :: rest) = a :: subs rest :=
  rfl

/-- Fodder is no subexpression. -/
@[simp] theorem subs_fodder (f : Fodder) (rest : List (Item α)) :
    subs (.fodder f :: rest) = subs rest := rfl

/-- Nothing is written where printing stops. -/
@[simp] theorem subs_noBinds (rest : List (Item α)) : subs (.noBinds :: rest) = subs rest := rfl

/-- The subexpressions of two lists follow each other. -/
@[simp] theorem subs_append (items items' : List (Item α)) :
    subs (items ++ items') = subs items ++ subs items' := List.filterMap_append

/-- The subexpressions of many lists follow each other. -/
@[simp] theorem subs_flatMap (items : β → List (Item α)) (bs : List β) :
    subs (bs.flatMap items) = bs.flatMap fun b => subs (items b) := List.filterMap_flatMap

/-- Items that are subexpressions only are listed as they are. -/
@[simp] theorem subs_map_sub (as : List α) : subs (as.map .sub) = as := by
  induction as with
  | nil => rfl
  | cons a as ih => rw [List.map_cons, subs_sub, ih]

/-- Replaced items have replaced subexpressions. -/
theorem subs_map (f : α → β) (items : List (Item α)) :
    subs (items.map (·.map f)) = (subs items).map f := by
  induction items with
  | nil => rfl
  | cons item items ih => cases item <;> simp [ih]

/-- The subexpressions are those that some item starts to print. -/
theorem mem_subs {items : List (Item α)} {a : α} : a ∈ subs items ↔ .sub a ∈ items := by
  induction items with
  | nil => simp
  | cons item items ih => cases item <;> simp [ih]

end Item

open Item

/-- The subexpressions that a form starts to print, in order. -/
def Form.written (form : Form α) : List α :=
  subs form.items

/-- A form with replaced subexpressions writes these, in the same order. -/
theorem Form.written_map (f : α → β) (form : Form α) :
    (form.map f).written = form.written.map f := by
  rw [written, items_map, subs_map, written]

/-- Arguments write their expressions. -/
@[simp]
theorem Arguments.subs_items (a : Arguments α) : subs a.items = a.exprs := by
  simp [items, exprs, Element.items, NamedArgument.items, List.map_eq_flatMap]

/-- A parameter list writes the default values. -/
@[simp]
theorem Parameters.subs_listItems (ps : Parameters α) : subs ps.listItems = ps.fallbacks := by
  have hitem (p : Parameter α) : subs p.items = p.fallback.toList := by
    cases h : p.fallback <;> simp [Parameter.items, h]
  simp [listItems, fallbacks, hitem, List.filterMap_eq_flatMap_toList]

/-- A parameter list that may be missing writes the default values if it is there. -/
@[simp]
theorem Parameters.subs_listItems? (ps? : Option (Parameters α)) :
    subs (Parameters.listItems? ps?) = Parameters.fallbacks? ps? := by
  simp [listItems?, fallbacks?]

/-- A binding writes its expressions. -/
@[simp]
theorem Binding.subs_items (b : Binding α) : subs b.items = b.exprs := by
  simp [items, exprs]

/-- Clauses write their expressions. -/
@[simp]
theorem Clauses.subs_items (cs : Clauses α) : subs cs.items = cs.exprs := by
  have hclause (c : Clause α) : subs c.items = c.exprs := by
    simp [Clause.items, Clause.exprs, Condition.items, List.map_eq_flatMap]
  simp only [items, subs_flatMap, hclause, exprs_eq_flatMap]

/-- A regular member writes the expressions that take part in its meaning. -/
theorem Member.IsRegular.subs_items {m : Member α} (h : m.IsRegular) : subs m.items = m.exprs := by
  cases hkind : m.kind with
  | assert =>
    have hmethod : m.method = none := h.2 hkind
    cases hexpr3 : m.expr3 <;>
      simp [items, exprs, hasNameExpr, hkind, hmethod, hexpr3, Parameters.fallbacks?]
  | localBind | fieldId | fieldStr | fieldExpr =>
    have hexpr3 : m.expr3 = none := h.1 (by simp [hkind])
    simp [items, valueItems, exprs, hasNameExpr, hkind, hexpr3]

/-! ## Forms that show all their children -/

namespace Form

/-- The members of an object literal or of an object comprehension. -/
def members : Form α → List (Member α)
  | .object o => o.members
  | .objectComp o => o.members
  | _ => []

/-- The identifier and the expression that an access to a field has for the name. -/
def access? : Form α → Option (Option String × Option α)
  | .index i => some (i.id, i.index)
  | .superIndex s => some (s.id, s.index)
  | _ => none

/-- A form as it is written has a place in its text for each of its children: an access has only one
of an identifier and an expression, only an assertion has a message, and no assertion has
parameters. -/
def ShowsChildren (form : Form α) : Prop :=
  (∀ access ∈ form.access?, access.1 = none ∨ access.2 = none) ∧ ∀ m ∈ form.members, m.IsRegular

instance (form : Form α) : Decidable form.ShowsChildren :=
  inferInstanceAs (Decidable (_ ∧ _))

/-- Printing stops right here if and only if the form is a local expression that binds no name. -/
theorem noBinds_mem_items_iff {form : Form α} :
    .noBinds ∈ form.items ↔ ∃ body, form = .locals [] body := by
  have hparams (ps : Parameters α) : .noBinds ∉ ps.listItems := by
    simp [Parameters.listItems, Parameter.items]
  have hparams? (ps? : Option (Parameters α)) : .noBinds ∉ Parameters.listItems? ps? := by
    simp [Parameters.listItems?, hparams]
  have hmember (m : Member α) : .noBinds ∉ m.items := by
    cases hkind : m.kind <;> simp [Member.items, Member.valueItems, hkind, hparams?]
  have hclauses (cs : Clauses α) : .noBinds ∉ cs.items := by
    simp [Clauses.items, Clause.items, Condition.items]
  cases form with
  | locals binds body => cases binds <;> simp [items, Binding.items, hparams?]
  | apply a =>
    cases h : a.tailStrict <;>
      simp [items, h, Arguments.items, Element.items, NamedArgument.items]
  | index i => cases h : i.id <;> simp [items, accessItems, h]
  | superIndex s => cases h : s.id <;> simp [items, accessItems, h]
  | loweredObject o =>
    simp [items, LoweredObject.items, Binding.loweredItems, LoweredField.items, hparams?]
  | _ => simp [items, Element.items, hparams, hmember, hclauses]

/-- A form writes just its children. Only members may be written in another order than they are
taken in as children. -/
def WritesChildren (form : Form α) : Prop :=
  ∃ rest, form.written = form.members.flatMap (·.exprs) ++ rest ∧
    form.children = Member.allExprs form.members ++ rest

/-- What is written is the children, in some order. -/
theorem WritesChildren.perm {form : Form α} (h : form.WritesChildren) :
    form.written.Perm form.children := by
  obtain ⟨rest, hwritten, hchildren⟩ := h
  rw [hwritten, hchildren]
  exact (Member.allExprs_perm _).symm.append_right rest

/-- A form that shows its children writes just these, unless it is an import or printing stops right
here. -/
theorem ShowsChildren.writesChildren {form : Form α} (hshows : form.ShowsChildren)
    (hraw : ∀ o, form ≠ .loweredObject o) (hcode : ∀ file, form ≠ .importCode file)
    (htext : ∀ file, form ≠ .importText file) (hbinds : ∀ body, form ≠ .locals [] body) :
    form.WritesChildren := by
  have hmembers : form.members.flatMap (fun m => subs m.items) = form.members.flatMap (·.exprs) :=
    List.flatMap_congr fun m hm => (hshows.2 m hm).subs_items
  have hplain (hnone : form.members = []) (hwritten : form.written = form.children) :
      form.WritesChildren :=
    ⟨form.children, by simp [hnone, hwritten], by simp [hnone, Member.allExprs]⟩
  cases form with
  | object o =>
    refine ⟨[], ?_, by simp [children, operands, deferred, members]⟩
    simpa [written, items, members] using hmembers
  | objectComp o =>
    refine ⟨o.clauses.exprs, ?_, by simp [children, operands, deferred, members]⟩
    simpa [written, items, members] using hmembers
  | loweredObject o => exact absurd rfl (hraw o)
  | importCode file => exact absurd rfl (hcode file)
  | importText file => exact absurd rfl (htext file)
  | locals binds body =>
    cases binds with
    | nil => exact absurd rfl (hbinds body)
    | cons b rest => exact hplain rfl (by simp [written, items, children, operands, deferred])
  | apply a =>
    refine hplain rfl ?_
    cases h : a.tailStrict <;> simp [written, items, children, operands, deferred, h]
  | index i =>
    refine hplain rfl ?_
    cases hid : i.id with
    | none => simp [written, items, accessItems, children, operands, deferred, hid]
    | some id =>
      have hindex : i.index = none := by simpa [access?, hid] using hshows.1
      simp [written, items, accessItems, children, operands, deferred, hid, hindex]
  | superIndex s =>
    refine hplain rfl ?_
    cases hid : s.id with
    | none => simp [written, items, accessItems, children, operands, deferred, hid]
    | some id =>
      have hindex : s.index = none := by simpa [access?, hid] using hshows.1
      simp [written, items, accessItems, children, operands, deferred, hid, hindex]
  | assert a =>
    refine hplain rfl ?_
    cases h : a.message <;> simp [written, items, children, operands, deferred, h]
  | conditional c =>
    refine hplain rfl ?_
    cases h : c.no <;> simp [written, items, children, operands, deferred, h]
  | array a =>
    exact hplain rfl (by
      simp [written, items, children, operands, deferred, Element.items, List.map_eq_flatMap])
  | _ => exact hplain rfl (by simp [written, items, children, operands, deferred])

end Form

namespace Expr

variable {e : Expr}

/-- An expression as it is written that is no import, and at which printing does not stop, writes
just its children. -/
theorem writesChildren (hfits : Shape.raw.forbids e.form = false) (himport : e.import? = none)
    (hbinds : ¬ ∃ body, e.form = .locals [] body) (hshows : e.form.ShowsChildren) :
    e.form.WritesChildren :=
  hshows.writesChildren (forbids_raw_iff.mp hfits) (fun file h => by simp [import?, h] at himport)
    (fun file h => by simp [import?, h] at himport) (not_exists.mp hbinds)

/-- An import writes its file operand and has neither members nor children. -/
theorem form_of_import? {kind : ImportKind} {file : Expr} (h : e.import? = some (kind, file)) :
    e.form.written = [file] ∧ e.form.members = [] ∧ e.children = [] := by
  unfold import? at h
  split at h
  next operand hform =>
    obtain ⟨-, rfl⟩ : ImportKind.code = kind ∧ operand = file := by simpa using h
    rw [children, hform]
    exact ⟨rfl, rfl, rfl⟩
  next operand hform =>
    obtain ⟨-, rfl⟩ : ImportKind.text = kind ∧ operand = file := by simpa using h
    rw [children, hform]
    exact ⟨rfl, rfl, rfl⟩
  next => cases h

/-! ## Where printing stops -/

/-- Printing stops in an expression if it stops right there or in something that is written. -/
theorem none_mem_notes_iff :
    none ∈ e.notes ↔
      (∃ body, e.form = .locals [] body) ∨ ∃ a ∈ e.form.written, none ∈ a.notes := by
  have hfodder :
      none ∉ if e.form.leftmost?.isNone then (Fodder.shown e.fodder).map some else [] := by
    split <;> simp
  rw [notes_eq, List.mem_append, or_iff_right hfodder, List.mem_flatMap,
    ← Form.noBinds_mem_items_iff]
  constructor
  · rintro ⟨item, hitem, hnone⟩
    cases item with
    | fodder f => simp [Item.notes] at hnone
    | sub a => exact .inr ⟨a, mem_subs.mpr hitem, hnone⟩
    | noBinds => exact .inl hitem
  · rintro (hitem | ⟨a, ha, hnone⟩)
    · exact ⟨_, hitem, by simp [Item.notes]⟩
    · exact ⟨_, mem_subs.mp ha, hnone⟩

/-- Printing does not stop in a string literal. -/
theorem none_notMem_notes_of_literal (h : e.literal?.isSome) : none ∉ e.notes := by
  unfold literal? at h
  split at h
  next s hform =>
    rw [none_mem_notes_iff, hform]
    simp [Form.written, Form.items]
  next => cases h

/-- Printing stops in an expression if and only if a local expression that binds no name can be
reached. -/
theorem none_mem_notes_iff_reaches (hfits : e.Fits .raw)
    (hfiles : ∀ a kind file, e.Reaches a → a.import? = some (kind, file) → file.literal?.isSome)
    (hshows : ∀ a, e.Reaches a → a.form.ShowsChildren) :
    none ∈ e.notes ↔ ∃ a body, e.Reaches a ∧ a.form = .locals [] body := by
  induction e using induct_children with
  | h e ih =>
    rw [none_mem_notes_iff]
    by_cases hbinds : ∃ body, e.form = .locals [] body
    · obtain ⟨body, hform⟩ := hbinds
      exact iff_of_true (.inl ⟨body, hform⟩) ⟨e, body, .refl e, hform⟩
    · rw [or_iff_right hbinds]
      have hbelow : (∃ a ∈ e.form.written, none ∈ a.notes) ↔ ∃ c ∈ e.children, none ∈ c.notes := by
        cases himport : e.import? with
        | none =>
          have hwrites :=
            writesChildren (hfits e (.refl e)) himport hbinds (hshows e (.refl e))
          exact exists_congr fun a => and_congr_left' hwrites.perm.mem_iff
        | some found =>
          -- What is printed of an import is a literal, and it has no children.
          obtain ⟨kind, file⟩ := found
          obtain ⟨hwritten, -, hchildren⟩ := form_of_import? himport
          have hfile := none_notMem_notes_of_literal (hfiles e kind file (.refl e) himport)
          simp [hwritten, hchildren, hfile]
      have hchild (c : Expr) (hc : c ∈ e.children) :
          none ∈ c.notes ↔ ∃ a body, c.Reaches a ∧ a.form = .locals [] body :=
        ih c hc (fun a ha => hfits a (.child hc ha))
          (fun a kind file ha => hfiles a kind file (.child hc ha))
          fun a ha => hshows a (.child hc ha)
      rw [hbelow]
      constructor
      · rintro ⟨c, hc, hnone⟩
        obtain ⟨a, body, ha, hform⟩ := (hchild c hc).mp hnone
        exact ⟨a, body, .child hc ha, hform⟩
      · rintro ⟨a, body, ha, hform⟩
        rcases reaches_iff.mp ha with rfl | ⟨c, hc, ha⟩
        · exact absurd ⟨body, hform⟩ hbinds
        · exact ⟨c, hc, (hchild c hc).mpr ⟨a, body, ha, hform⟩⟩

end Expr

/-- No run of blanks in a text is too long if this holds for the fodder and the subexpressions in its
script. -/
theorem Script.halt?_ne_overlong {P : Fodder → Prop} {Q : Expr → Prop} {s s' : Situation → Bool}
    {text : Text} {items : List (Item Expr)} {print : Expr → Bool → List Piece}
    (h : Script P Q s text items s') (hfodder : ∀ f, P f → ∀ e ∈ f, e.isPrintable = true)
    (hprint : ∀ a, Q a → ∀ crowded, ∀ p ∈ print a crowded, p.halt? ≠ some .overlong)
    (x : Situation) : ∀ p ∈ text x print, p.halt? ≠ some .overlong := by
  have hfill {f : Fodder} (hf : ∀ e ∈ f, e.isPrintable = true) (crowded separate : Bool) :
      ∀ p ∈ fill f crowded separate, p.halt? ≠ some .overlong := fun p hp => by
    simp [halt?_fill hf crowded separate p hp]
  induction h with
  | nil => simp
  | word | mark | literal | noBinds => simp [Piece.halt?]
  | space => simp [Piece.halt?, maxTextBytes]
  | padding => exact hfill (by simp) _ _
  | fodder hf | separator hf => exact hfill (hfodder _ hf) _ _
  | sub ha => exact hprint _ ha _
  | append _ _ ih ih' => exact List.forall_mem_append.mpr ⟨ih, ih'⟩
  | weaken _ _ _ ih => exact ih

/-- No run of blanks in the text of an expression is too long if all its fodder can be printed. -/
theorem Expr.EveryFodder.halt?_ne_overlong {e : Expr}
    (h : e.EveryFodder fun f => ∀ element ∈ f, element.isPrintable = true)
    (options : LayoutOptions) (crowded : Bool) :
    ∀ p ∈ e.pieces options crowded, p.halt? ≠ some .overlong := by
  induction h generalizing crowded with
  | @intro e hfodder _ ih =>
    have hscript := e.script hfodder fun part hpart => ih part hpart
    rw [pieces_eq_piecesWith]
    exact hscript.halt?_ne_overlong (fun _ hf => hf) (fun _ ha => ha) (options, crowded)

namespace Tree

variable {t : Tree} {limit : Nat}

/-- All fodder in a tree can be printed. -/
def HasPrintableFodder (t : Tree) : Prop :=
  (t.root.EveryFodder fun f => ∀ element ∈ f, element.isPrintable = true) ∧
    ∀ element ∈ t.finalFodder, element.isPrintable = true

instance (t : Tree) : Decidable t.HasPrintableFodder :=
  inferInstanceAs (Decidable (_ ∧ _))

/-- No run of blanks in the text of a tree is too long if all its fodder can be printed. -/
theorem HasPrintableFodder.halt?_ne_overlong (h : t.HasPrintableFodder) (options : LayoutOptions) :
    ∀ p ∈ t.pieces options, p.halt? ≠ some .overlong := by
  simp only [pieces, List.forall_mem_append]
  refine ⟨⟨h.1.halt?_ne_overlong options false, fun p hp => ?_⟩, by decide⟩
  simp [halt?_fill h.2 true false p hp]

end Tree

end JsonnetTree
