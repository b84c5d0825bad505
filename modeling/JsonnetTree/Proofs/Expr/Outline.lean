import JsonnetTree.Expr.Build
import JsonnetTree.Proofs.Expr.Children
import JsonnetTree.Proofs.Expr.MapChildren
import Mathlib.Data.Option.Basic

/-!
# Outlines of forms

The outline of a form is the form with its children left out. Whatever is done to the children in
place, the outline stays the same (`Form.outline_mapChildrenM`), and a form is determined by its
outline and its children (`Form.eq_of_outline`). So the children can be read and written, and
nothing else is touched (`Expr.eq_withChildren_iff`).
-/

namespace JsonnetTree

variable {α β γ κ κ' σ : Type}

/-- A form with its children left out. Everything else is kept, also the subexpressions that are no
children. -/
def Form.outline (form : Form α) : Form (Option α) :=
  form.mapChildren (fun _ => none) some

/-! ## What going through children keeps -/

/-- Whatever the state, the result of the action has the given outline. -/
def Keeps (outline : β → κ) (action : StateM σ β) (kept : κ) : Prop :=
  ∀ s, outline (action s).1 = kept

namespace Keeps

section Actions

variable {outline : β → κ} {outline' : γ → κ'} {action : StateM σ β} {kept : κ} {kept' : κ'}

/-- A result that is given. -/
protected theorem pure {b : β} (h : outline b = kept) :
    Keeps outline (pure b : StateM σ β) kept :=
  fun _ => h

/-- Of the result of the first action, only the outline matters to that of the second one. -/
protected theorem bind {next : β → StateM σ γ} (h : Keeps outline action kept)
    (hnext : ∀ b, outline b = kept → Keeps outline' (next b) kept') :
    Keeps outline' (action >>= next) kept' :=
  fun s => hnext (action s).1 (h s) (action s).2

/-- The result of the first action does not matter. -/
theorem bind_any {next : β → StateM σ γ} (hnext : ∀ b, Keeps outline' (next b) kept') :
    Keeps outline' (action >>= next) kept' :=
  fun s => hnext (action s).1 (action s).2

/-- What is made of the result of an action. -/
protected theorem map {g : β → γ} (h : Keeps outline action kept)
    (hg : ∀ b, outline b = kept → outline' (g b) = kept') : Keeps outline' (g <$> action) kept' :=
  fun s => hg (action s).1 (h s)

/-- Items whose outlines are kept. -/
theorem mapM {step : β → StateM σ β} (h : ∀ x, Keeps outline (step x) (outline x))
    (items : List β) : Keeps (List.map outline) (items.mapM step) (items.map outline) :=
  map_mapM_of_kept h items

end Actions

/-! ### Parts of expressions -/

variable (f : α → StateM σ α) (k : β)

/-- Whether there is an expression is kept. -/
theorem option (e : Option α) :
    Keeps (Option.map fun _ => k) (e.mapM f) (e.map fun _ => k) := by
  cases e <;> exact fun _ => rfl

/-- A list element is kept but for its expression. -/
theorem element (e : Element α) : Keeps (Element.map fun _ => k) (e.mapM f) (e.map fun _ => k) :=
  fun _ => rfl

/-- An argument is kept but for its value. -/
theorem namedArgument (a : NamedArgument α) :
    Keeps (NamedArgument.map fun _ => k) (a.mapM f) (a.map fun _ => k) :=
  fun _ => rfl

/-- Arguments are kept but for their expressions. -/
theorem arguments (a : Arguments α) :
    Keeps (Arguments.map fun _ => k) (a.mapM f) (a.map fun _ => k) :=
  .bind (.mapM (element f k) a.positional) fun _ hpositional =>
    .bind (.mapM (namedArgument f k) a.named) fun _ hnamed =>
      .pure (congrArg₂ Arguments.mk hpositional hnamed)

/-- A parameter is kept but for its default value. -/
theorem parameter (p : Parameter α) :
    Keeps (Parameter.map fun _ => k) (p.mapM f) (p.map fun _ => k) :=
  .bind (option f k p.fallback) fun _ h => .pure (by simp [Parameter.map, h])

/-- A parameter list is kept but for its default values. -/
theorem parameters (ps : Parameters α) :
    Keeps (Parameters.map fun _ => k) (ps.mapM f) (ps.map fun _ => k) :=
  .bind (.mapM (parameter f k) ps.items) fun _ h => .pure (by simp [Parameters.map, h])

/-- A parameter list that may be missing is kept but for its default values. -/
theorem parameters? (ps? : Option (Parameters α)) :
    Keeps (Option.map (Parameters.map fun _ => k)) (ps?.mapM (·.mapM f))
      (ps?.map (·.map fun _ => k)) := by
  cases ps? with
  | none => exact .pure rfl
  | some ps => exact (parameters f k ps).map fun _ h => congrArg some h

/-- A binding is kept but for its expressions. -/
theorem binding (b : Binding α) :
    Keeps (Binding.map fun _ => k) (b.mapM f) (b.map fun _ => k) :=
  .bind (parameters? f k b.params) fun _ h => .bind_any fun _ => .pure (by simp [Binding.map, h])

/-- The body of a binding may change, and the default values of its parameters are kept. -/
theorem bindingBody (o : α → β) (b : Binding α) :
    Keeps (Binding.mapBody (fun _ => k) o) (b.mapBodyM f) (b.mapBody (fun _ => k) o) :=
  fun _ => rfl

/-- A condition is kept but for its expression. -/
theorem condition (c : Condition α) :
    Keeps (Condition.map fun _ => k) (c.mapM f) (c.map fun _ => k) :=
  fun _ => rfl

/-- A clause is kept but for its expressions. -/
theorem clause (c : Clause α) : Keeps (Clause.map fun _ => k) (c.mapM f) (c.map fun _ => k) :=
  .bind_any fun _ => .bind (.mapM (condition f k) c.conditions) fun _ h =>
    .pure (by simp [Clause.map, h])

/-- Clauses are kept but for their expressions. -/
theorem clauses (cs : Clauses α) :
    Keeps (Clauses.map fun _ => k) (cs.mapM f) (cs.map fun _ => k) := by
  induction cs with
  | outermost c => exact (clause f k c).map fun _ h => congrArg Clauses.outermost h
  | inside outer c ih =>
    exact .bind ih fun _ houter => .bind (clause f k c) fun _ hclause =>
      .pure (congrArg₂ Clauses.inside houter hclause)

/-! ### Members of objects -/

variable (o : α → β)

/-- A member is kept but for the expressions that take part in its meaning. -/
theorem member (m : Member α) :
    Keeps (Member.mapChildren (fun _ => k) o) (m.mapChildrenM f)
      (m.mapChildren (fun _ => k) o) := by
  unfold Member.mapChildrenM
  by_cases h : m.hasNameExpr
  · rw [if_pos h]
    refine .bind (option f k m.expr1) fun _ hname =>
      .bind (parameters? f k m.method) fun _ hmethod =>
        .bind (option f k m.expr2) fun _ hvalue => .bind (option f k m.expr3) fun _ hmessage =>
          .pure ?_
    have hkind : m.kind = .fieldStr ∨ m.kind = .fieldExpr := by simpa [Member.hasNameExpr] using h
    simp [Member.mapChildren, Member.hasNameExpr, hkind, hname, hmethod, hvalue, hmessage]
  · rw [if_neg h, pure_bind]
    refine .bind (parameters? f k m.method) fun _ hmethod =>
      .bind (option f k m.expr2) fun _ hvalue => .bind (option f k m.expr3) fun _ hmessage =>
        .pure ?_
    simp [Member.mapChildren, Member.hasNameExpr, hmethod, hvalue, hmessage]

/-- All members are kept but for the expressions that take part in their meaning. -/
theorem members (ms : List (Member α)) :
    Keeps (List.map (Member.mapChildren (fun _ => k) o)) (Member.mapAllM f ms)
      (ms.map (·.mapChildren (fun _ => k) o)) := by
  -- Each of the two passes keeps every member, whether it changes its expressions or not.
  refine .bind (.mapM (fun m => ?_) ms) fun ms' h => h ▸ .mapM (fun m => ?_) ms'
  · cases m.isLocal
    · exact .pure rfl
    · exact member f k o m
  · cases m.isLocal
    · exact member f k o m
    · exact .pure rfl

/-! ### Forms -/

/-- A lowered object is kept but for its children. -/
theorem loweredObject (x : LoweredObject α) :
    Keeps (Form.mapChildren (fun _ => k) o) (Form.mapChildrenM f (.loweredObject x))
      (.loweredObject (x.mapChildren (fun _ => k) o)) := by
  have hnames : Keeps (List.map (LoweredField.map fun _ => k)) (x.fields.mapM (·.mapNameM f))
      (x.fields.map (·.map fun _ => k)) := .mapM (fun _ _ => rfl) x.fields
  have hbodies (fields : List (LoweredField α)) :
      Keeps (List.map (LoweredField.map fun _ => k)) (fields.mapM (·.mapBodyM f))
        (fields.map (·.map fun _ => k)) := .mapM (fun _ _ => rfl) fields
  have hasserts : Keeps (List.map fun _ => k) (x.asserts.mapM f) (x.asserts.map fun _ => k) :=
    .mapM (fun _ _ => rfl) x.asserts
  refine .bind hnames fun fields hfields => .bind (hbodies fields) fun fields' hfields' =>
    .bind (.mapM (bindingBody f k o) x.locals) fun locals hlocals =>
      .bind hasserts fun asserts hasserts => .pure ?_
  simp only [Form.mapChildren, LoweredObject.mapChildren, hfields', hfields, hlocals, hasserts]

/-- A form is kept but for its children. -/
theorem form (form : Form α) :
    Keeps (Form.mapChildren (fun _ => k) o) (form.mapChildrenM f)
      (form.mapChildren (fun _ => k) o) := by
  cases form with
  | apply a =>
    exact .bind_any fun _ => .bind (arguments f k a.arguments) fun _ h =>
      .pure (by simp [Form.mapChildren, Form.map, h])
  | array a =>
    exact .bind (.mapM (element f k) a.elements) fun _ h =>
      .pure (by simp [Form.mapChildren, Form.map, h])
  | arrayComp a =>
    exact .bind_any fun _ => .bind (clauses f k a.clauses) fun _ h =>
      .pure (by simp [Form.mapChildren, Form.map, h])
  | assert a =>
    exact .bind_any fun _ => .bind (option f k a.message) fun _ h => .bind_any fun _ =>
      .pure (by simp [Form.mapChildren, Form.map, h])
  | conditional x =>
    exact .bind_any fun _ => .bind_any fun _ => .bind (option f k x.no) fun _ h =>
      .pure (by simp [Form.mapChildren, Form.map, h])
  | function params body =>
    exact .bind (parameters f k params) fun _ h => .bind_any fun _ =>
      .pure (by simp [Form.mapChildren, Form.map, h])
  | index i =>
    exact .bind_any fun _ => .bind (option f k i.index) fun _ h =>
      .pure (by simp [Form.mapChildren, Form.map, h])
  | slice s =>
    exact .bind_any fun _ => .bind (option f k s.start) fun _ hstart =>
      .bind (option f k s.stop) fun _ hstop => .bind (option f k s.step) fun _ hstep =>
        .pure (by simp [Form.mapChildren, Form.map, hstart, hstop, hstep])
  | locals binds body =>
    exact .bind (.mapM (binding f k) binds) fun _ h => .bind_any fun _ =>
      .pure (by simp [Form.mapChildren, Form.map, h])
  | object x =>
    exact .bind (members f k o x.members) fun _ h => .pure (by simp [Form.mapChildren, h])
  | loweredObject x => exact loweredObject f k o x
  | objectComp x =>
    exact .bind (members f k o x.members) fun _ hmembers =>
      .bind (clauses f k x.clauses) fun _ hclauses =>
        .pure (by simp [Form.mapChildren, hmembers, hclauses])
  | superIndex s =>
    exact .bind (option f k s.index) fun _ h => .pure (by simp [Form.mapChildren, Form.map, h])
  | applyBrace _ _ | binary _ | error _ | inSuper _ | parens _ _ | unary _ _ => exact fun _ => rfl
  | importCode _ | importText _ => exact .pure rfl
  | dollar | boolean _ | null | number _ | string _ | self | var _ => exact .pure rfl

end Keeps

namespace Form

/-- Whatever is done to the children of a form in place, its outline stays the same. -/
theorem outline_mapChildrenM (f : α → StateM σ α) (form : Form α) (s : σ) :
    (form.mapChildrenM f s).1.outline = form.outline :=
  Keeps.form f none some form s

/-- A form is determined by its outline and its children. -/
theorem eq_of_outline [Nonempty α] {form form' : Form α} (houtline : form.outline = form'.outline)
    (hchildren : form.children = form'.children) : form = form' := by
  -- To give an outline its children back is to mark them as given.
  have hmark (form : Form α) :
      form.outline.withChildren (form.children.map some) = form.mapChildren some some :=
    withChildren_mapChildren (fun _ => none) some some form
  obtain ⟨value, hvalue⟩ := (Option.some_injective α).hasLeftInverse
  have hmarked (form : Form α) : (form.mapChildren some some).mapChildren value value = form := by
    rw [mapChildren_mapChildren, hvalue.comp_eq_id, mapChildren_id]
  rw [← hmarked form, ← hmark, houtline, hchildren, hmark, hmarked]

end Form

/-- The children of an expression that can be replaced are all its children, in the same order. When
they are replaced by as many expressions, the new expression has just these as its children, and
its location, its fodder and its outline are the old ones. No other expression is like this. -/
theorem Expr.eq_withChildren_iff (e : Expr) :
    e.exposed = e.children ∧
      ∀ new : List Expr, new.length = e.exposed.length → ∀ e' : Expr,
        e' = e.withChildren new ↔
          e'.children = new ∧ e'.location = e.location ∧ e'.fodder = e.fodder ∧
            e'.form.outline = e.form.outline := by
  have hexposed : e.exposed = e.children := e.form.exposed_eq_children
  refine ⟨hexposed, fun new hlength e' => ?_⟩
  rw [hexposed] at hlength
  have hchildren : (e.withChildren new).children = new := Form.children_withChildren hlength
  have houtline : (e.withChildren new).form.outline = e.form.outline :=
    e.form.outline_mapChildrenM refill new
  constructor
  · rintro rfl
    exact ⟨hchildren, rfl, rfl, houtline⟩
  · rintro ⟨hnew, hlocation, hfodder, hform⟩
    have hsame : e'.form = (e.withChildren new).form :=
      Form.eq_of_outline (hform.trans houtline.symm) (hnew.trans hchildren.symm)
    cases e'
    cases hlocation
    cases hfodder
    exact congrArg (Expr.mk e.location e.fodder) hsame

/-- A field with a default value and a value, then a local binding, whose body is the first child.
The expression in the place of a name is no child, as the field is named by an identifier. -/
theorem Expr.eq_withChildren_iff_object :
    let object (bound fallback value : Expr) : Expr :=
      { Build.object [
          { Build.fieldId "f" .hidden value with
            method := some ⟨[], [⟨[], "x", [], some fallback, [], .unset⟩], true, []⟩
            expr1 := some Build.self },
          Build.objectLocal "y" bound] with
        location := ⟨"a", ⟨1, 2⟩, ⟨3, 4⟩⟩, fodder := [⟨.interstitial, 0, 0, ["# c"]⟩] }
    let e := object (Build.number "1") (Build.number "2") (Build.number "3")
    e.exposed = e.children ∧
      e.exposed = [Build.number "1", Build.number "2", Build.number "3"] ∧
      object Build.null e Build.dollar = e.withChildren [Build.null, e, Build.dollar] := by
  intro object e
  obtain ⟨hexposed, hwrite⟩ := Expr.eq_withChildren_iff e
  exact ⟨hexposed, rfl, (hwrite [Build.null, e, Build.dollar] rfl _).mpr ⟨rfl, rfl, rfl, rfl⟩⟩

end JsonnetTree
