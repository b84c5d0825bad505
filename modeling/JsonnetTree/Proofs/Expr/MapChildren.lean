import JsonnetTree.Expr.Basic
import JsonnetTree.Expr.FormLaws
import Mathlib.Data.List.Basic

/-!
# Changing children

`Form.mapChildren` changes the children of a form in place and treats its other subexpressions
apart. It is said part by part, without a list of children, and replacing the children by changed
ones comes to the same (`Form.withChildren_map`). So nothing but children is touched when children
are replaced.
-/

namespace JsonnetTree

variable {α β γ : Type}

/-! ## Definitions -/

/-- Changes the expressions of a member: those that take part in its meaning by `child`, and a name
that does not by `other`. -/
def Member.mapChildren (child other : α → β) (m : Member α) : Member β where
  kind := m.kind
  hide := m.hide
  superSugar := m.superSugar
  method := m.method.map (·.map child)
  fodder1 := m.fodder1
  expr1 := m.expr1.map (if m.hasNameExpr then child else other)
  id := m.id
  fodder2 := m.fodder2
  opFodder := m.opFodder
  expr2 := m.expr2.map child
  expr3 := m.expr3.map child
  commaFodder := m.commaFodder
  location := m.location

/-- Changes the expressions of a local binding of a lowered object, of which only the body is a
child. -/
def Binding.mapBody (child other : α → β) (b : Binding α) : Binding β where
  varFodder := b.varFodder
  name := b.name
  eqFodder := b.eqFodder
  body := child b.body
  params := b.params.map (·.map other)
  closeFodder := b.closeFodder
  location := b.location

/-- Changes the children of a lowered object by `child` and its other expressions by `other`. -/
def LoweredObject.mapChildren (child other : α → β) (o : LoweredObject α) : LoweredObject β where
  asserts := o.asserts.map child
  fields := o.fields.map (·.map child)
  locals := o.locals.map (·.mapBody child other)

/-- Changes the children of a form by `child` and its other subexpressions by `other`. Only
imports, objects and object comprehensions hold subexpressions that are no children. -/
def Form.mapChildren (child other : α → β) : Form α → Form β
  | .importCode file => .importCode (other file)
  | .importText file => .importText (other file)
  | .object o => .object ⟨o.members.map (·.mapChildren child other), o.trailingComma, o.closeFodder⟩
  | .objectComp o => .objectComp ⟨o.members.map (·.mapChildren child other), o.trailingComma,
      o.clauses.map child, o.closeFodder⟩
  | .loweredObject o => .loweredObject (o.mapChildren child other)
  | form => form.map child

/-- Changes the children of an expression. -/
def Expr.mapChildren (f : Expr → Expr) (e : Expr) : Expr :=
  { e with form := e.form.mapChildren f id }

/-! ## Changing twice and changing nothing -/

section Parts

variable (f : α → β) (g : β → γ)

/-- Two changes of a list element are one. -/
@[simp] theorem Element.map_map (e : Element α) : (e.map f).map g = e.map (g ∘ f) := rfl

/-- Two changes of an argument are one. -/
@[simp] theorem NamedArgument.map_map (a : NamedArgument α) :
    (a.map f).map g = a.map (g ∘ f) := rfl

/-- Two changes of arguments are one. -/
@[simp] theorem Arguments.map_map (a : Arguments α) : (a.map f).map g = a.map (g ∘ f) := by
  simp [Arguments.map, Function.comp_def]

/-- Two changes of a parameter are one. -/
@[simp] theorem Parameter.map_map (p : Parameter α) : (p.map f).map g = p.map (g ∘ f) := by
  simp [Parameter.map]

/-- Two changes of a parameter list are one. -/
@[simp] theorem Parameters.map_map (ps : Parameters α) : (ps.map f).map g = ps.map (g ∘ f) := by
  simp [Parameters.map, Function.comp_def]

/-- Two changes of a binding are one. -/
@[simp] theorem Binding.map_map (b : Binding α) : (b.map f).map g = b.map (g ∘ f) := by
  simp [Binding.map, Function.comp_def]

/-- Two changes of a condition are one. -/
@[simp] theorem Condition.map_map (c : Condition α) : (c.map f).map g = c.map (g ∘ f) := rfl

/-- Two changes of a clause are one. -/
@[simp] theorem Clause.map_map (c : Clause α) : (c.map f).map g = c.map (g ∘ f) := by
  simp [Clause.map, Function.comp_def]

/-- Two changes of clauses are one. -/
@[simp] theorem Clauses.map_map (cs : Clauses α) : (cs.map f).map g = cs.map (g ∘ f) := by
  induction cs with
  | outermost clause => simp [Clauses.map]
  | inside outer clause ih => simp [Clauses.map, ih]

/-- Two changes of a field are one. -/
@[simp] theorem LoweredField.map_map (d : LoweredField α) : (d.map f).map g = d.map (g ∘ f) := rfl

end Parts

/-- A parameter list that is changed to itself. -/
@[simp] theorem Parameters.map_id (ps : Parameters α) : ps.map id = ps := by
  simp [Parameters.map, Parameter.map]

/-- Clauses that are changed to themselves. -/
@[simp] theorem Clauses.map_id (cs : Clauses α) : cs.map id = cs := by
  induction cs with
  | outermost clause => simp [Clauses.map, Clause.map, Condition.map]
  | inside outer clause ih => simp [Clauses.map, Clause.map, Condition.map, ih]

section Laws

variable (child other : α → β) (child' other' : β → γ)

/-- Changing a member keeps whether it is a local binding. -/
@[simp] theorem Member.isLocal_mapChildren (m : Member α) :
    (m.mapChildren child other).isLocal = m.isLocal := rfl

/-- The expressions of a changed member that take part in its meaning. -/
@[simp] theorem Member.exprs_mapChildren (m : Member α) :
    (m.mapChildren child other).exprs = m.exprs.map child := by
  by_cases h : m.kind = .fieldStr ∨ m.kind = .fieldExpr <;>
    simp [Member.exprs, Member.hasNameExpr, Member.mapChildren, Option.toList_map, h]

/-- The expressions of changed members that take part in their meaning. -/
@[simp] theorem Member.allExprs_mapChildren (ms : List (Member α)) :
    allExprs (ms.map (·.mapChildren child other)) = (allExprs ms).map child := by
  simp [allExprs, List.filter_map, List.flatMap_map, List.map_flatMap, Function.comp_def]

/-- Two changes of a member are one. -/
@[simp] theorem Member.mapChildren_mapChildren (m : Member α) :
    (m.mapChildren child other).mapChildren child' other' =
      m.mapChildren (child' ∘ child) (other' ∘ other) := by
  by_cases h : m.kind = .fieldStr ∨ m.kind = .fieldExpr <;>
    simp [Member.mapChildren, Member.hasNameExpr, h, Function.comp_def]

/-- Two changes of a local binding of a lowered object are one. -/
@[simp] theorem Binding.mapBody_mapBody (b : Binding α) :
    (b.mapBody child other).mapBody child' other' =
      b.mapBody (child' ∘ child) (other' ∘ other) := by
  simp [Binding.mapBody, Function.comp_def]

/-- Two changes of a lowered object are one. -/
@[simp] theorem LoweredObject.mapChildren_mapChildren (o : LoweredObject α) :
    (o.mapChildren child other).mapChildren child' other' =
      o.mapChildren (child' ∘ child) (other' ∘ other) := by
  simp [LoweredObject.mapChildren, Function.comp_def]

/-- Two changes of a form are one. -/
@[simp] theorem Form.mapChildren_mapChildren (form : Form α) :
    (form.mapChildren child other).mapChildren child' other' =
      form.mapChildren (child' ∘ child) (other' ∘ other) := by
  cases form <;> simp [Form.mapChildren, Form.map, Function.comp_def]

/-- Changing all subexpressions is changing the children and the others alike. -/
theorem Form.map_eq_mapChildren (form : Form α) : form.map child = form.mapChildren child child := by
  cases form <;> simp [Form.map, Form.mapChildren, Member.map, Member.mapChildren,
    LoweredObject.mapChildren, Binding.map, Binding.mapBody]

/-- The children of a changed form are the changed children. -/
@[simp] theorem Form.children_mapChildren (form : Form α) :
    (form.mapChildren child other).children = form.children.map child := by
  cases form with
  | importCode _ | importText _ => rfl
  | object o => simp [mapChildren, children, operands, deferred]
  | objectComp o => simp [mapChildren, children, operands, deferred]
  | loweredObject o =>
    simp [mapChildren, LoweredObject.mapChildren, children, operands, deferred, LoweredField.map,
      Binding.mapBody, Function.comp_def]
  | _ => simp [mapChildren]

/-- A form whose children are kept is kept. -/
@[simp] theorem Form.mapChildren_id (form : Form α) : form.mapChildren id id = form := by
  cases form <;> simp [Form.mapChildren, Form.map, Arguments.map, Element.map, NamedArgument.map,
    Binding.map, Member.mapChildren, LoweredObject.mapChildren, LoweredField.map, Binding.mapBody]

end Laws

/-! ## Handing out changed children -/

/-- The action takes the given expressions off a list, and its result is the given one. -/
def Refills (action : StateM (List α) β) (new : List α) (result : β) : Prop :=
  ∀ rest, action (new ++ rest) = (result, rest)

namespace Refills

section Actions

variable {action : StateM (List α) β} {new new' : List α} {b : β} {c : γ}

/-- An action that takes nothing. -/
protected theorem pure (b : β) : Refills (pure b : StateM (List α) β) [] b :=
  fun _ => rfl

/-- Two actions take what the first takes and then what the second takes. -/
protected theorem bind {next : β → StateM (List α) γ} (h : Refills action new b)
    (hnext : Refills (next b) new' c) : Refills (action >>= next) (new ++ new') c := by
  intro rest
  have hfirst : action (new ++ new' ++ rest) = (b, new' ++ rest) := by
    rw [List.append_assoc]
    exact h _
  simp only [bind, StateT.bind, hfirst]
  exact hnext rest

/-- What is made of the result of an action. -/
protected theorem map {f : β → γ} (h : Refills action new b) :
    Refills (f <$> action) new (f b) := by
  intro rest
  simp only [Functor.map, StateT.map, h rest]
  rfl

/-- The last action of a chain takes nothing. -/
theorem bind_pure {next : β → StateM (List α) γ} (h : Refills action new b)
    (hnext : next b = pure c) : Refills (action >>= next) new c := by
  have hlast : Refills (next b) [] c := hnext ▸ Refills.pure c
  simpa using h.bind hlast

/-- The expressions that are taken may be written in another way. -/
protected theorem congr (h : Refills action new b) (hnew : new = new') : Refills action new' b :=
  hnew ▸ h

/-- A single expression is taken. -/
theorem one (old new : α) : Refills (refill old) [new] new :=
  fun _ => rfl

/-- Items take expressions one after the other. -/
theorem mapM {items : List γ} {old new : γ → β} {step : β → StateM (List α) β}
    {taken : γ → List α} (h : ∀ x ∈ items, Refills (step (old x)) (taken x) (new x)) :
    Refills ((items.map old).mapM step) (items.flatMap taken) (items.map new) := by
  induction items with
  | nil => exact .pure []
  | cons x items ih =>
    have hitems := ih fun y hy => h y (List.mem_cons_of_mem x hy)
    rw [List.map_cons, List.mapM_cons, List.flatMap_cons, List.map_cons]
    exact (h x List.mem_cons_self).bind (hitems.bind_pure rfl)

/-- Items that hold one expression each take new ones one after the other. -/
theorem mapM_one {items : List γ} {old new : γ → β} {step : β → StateM (List α) β}
    {taken : γ → α} (h : ∀ x ∈ items, Refills (step (old x)) [taken x] (new x)) :
    Refills ((items.map old).mapM step) (items.map taken) (items.map new) := by
  rw [List.map_eq_flatMap (f := taken)]
  exact mapM h

end Actions

/-! ### Parts of expressions

A part that was changed by `c` is given what `d` makes of its old expressions. This comes to the
same as changing it by `d`. -/

variable (c d o : α → β)

/-- An expression is taken if there is one. -/
theorem option (e : Option α) : Refills ((e.map c).mapM refill) (e.toList.map d) (e.map d) := by
  cases e with
  | none => exact .pure none
  | some old => exact (one (c old) (d old)).map

/-- The expression of a list element is replaced. -/
theorem element (e : Element α) : Refills ((e.map c).mapM refill) [d e.expr] (e.map d) :=
  (one (c e.expr) (d e.expr)).bind_pure rfl

/-- The value of an argument is replaced. -/
theorem namedArgument (a : NamedArgument α) :
    Refills ((a.map c).mapM refill) [d a.value] (a.map d) :=
  (one (c a.value) (d a.value)).bind_pure rfl

/-- The expressions of arguments are replaced. -/
theorem arguments (a : Arguments α) :
    Refills ((a.map c).mapM refill) (a.exprs.map d) (a.map d) := by
  have hpositional : Refills ((a.positional.map (·.map c)).mapM (·.mapM refill))
      (a.positional.map (d ·.expr)) (a.positional.map (·.map d)) :=
    mapM_one fun e _ => element c d e
  have hnamed : Refills ((a.named.map (·.map c)).mapM (·.mapM refill))
      (a.named.map (d ·.value)) (a.named.map (·.map d)) :=
    mapM_one fun n _ => namedArgument c d n
  have hexprs : a.exprs.map d = a.positional.map (d ·.expr) ++ a.named.map (d ·.value) := by
    simp [Arguments.exprs, Function.comp_def]
  rw [hexprs]
  exact hpositional.bind (hnamed.bind_pure rfl)

/-- The default value of a parameter is replaced. -/
theorem parameter (p : Parameter α) :
    Refills ((p.map c).mapM refill) (p.fallback.toList.map d) (p.map d) :=
  (option c d p.fallback).bind_pure rfl

/-- The default values of a parameter list are replaced. -/
theorem parameters (ps : Parameters α) :
    Refills ((ps.map c).mapM refill) (ps.fallbacks.map d) (ps.map d) := by
  have hitems : Refills ((ps.items.map (·.map c)).mapM (·.mapM refill))
      (ps.items.flatMap (·.fallback.toList.map d)) (ps.items.map (·.map d)) :=
    mapM fun p _ => parameter c d p
  have hfallbacks : ps.fallbacks.map d = ps.items.flatMap (·.fallback.toList.map d) := by
    rw [Parameters.fallbacks, List.filterMap_eq_flatMap_toList, List.map_flatMap]
  rw [hfallbacks]
  exact hitems.bind_pure rfl

/-- The default values of a parameter list that may be missing are replaced. -/
theorem parameters? (ps? : Option (Parameters α)) :
    Refills ((ps?.map (·.map c)).mapM (·.mapM refill)) ((Parameters.fallbacks? ps?).map d)
      (ps?.map (·.map d)) := by
  cases ps? with
  | none => exact .pure none
  | some ps =>
    have hfallbacks : Parameters.fallbacks? (some ps) = ps.fallbacks := by
      simp [Parameters.fallbacks?]
    rw [hfallbacks]
    exact (parameters c d ps).map

/-- The expressions of a binding are replaced. -/
theorem binding (b : Binding α) : Refills ((b.map c).mapM refill) (b.exprs.map d) (b.map d) := by
  rw [Binding.exprs, List.map_append]
  exact (parameters? c d b.params).bind ((one (c b.body) (d b.body)).bind_pure rfl)

/-- The body of a binding is replaced and the default values of its parameters are kept. -/
theorem bindingBody (b : Binding α) :
    Refills ((b.mapBody c o).mapBodyM refill) [d b.body] (b.mapBody d o) :=
  (one (c b.body) (d b.body)).bind_pure rfl

/-- The expression of a condition is replaced. -/
theorem condition (x : Condition α) : Refills ((x.map c).mapM refill) [d x.expr] (x.map d) :=
  (one (c x.expr) (d x.expr)).bind_pure rfl

/-- The expressions of a clause are replaced. -/
theorem clause (x : Clause α) : Refills ((x.map c).mapM refill) (x.exprs.map d) (x.map d) := by
  have hconditions : Refills ((x.conditions.map (·.map c)).mapM (·.mapM refill))
      (x.conditions.map (d ·.expr)) (x.conditions.map (·.map d)) :=
    mapM_one fun y _ => condition c d y
  have hexprs : x.exprs.map d = [d x.expr] ++ x.conditions.map (d ·.expr) := by
    simp [Clause.exprs, Function.comp_def]
  rw [hexprs]
  exact (one (c x.expr) (d x.expr)).bind (hconditions.bind_pure rfl)

/-- The expressions of clauses are replaced. -/
theorem clauses (xs : Clauses α) :
    Refills ((xs.map c).mapM refill) (xs.exprs.map d) (xs.map d) := by
  induction xs with
  | outermost x => exact (clause c d x).map
  | inside outer x ih =>
    rw [Clauses.exprs, List.map_append]
    exact ih.bind ((clause c d x).bind_pure rfl)

/-! ### Members of objects -/

/-- The expressions of a member that take part in its meaning are replaced. -/
theorem member (m : Member α) :
    Refills ((m.mapChildren c o).mapChildrenM refill) (m.exprs.map d) (m.mapChildren d o) := by
  have hrest (expr1 : Option β) (hname : expr1 = m.expr1.map (if m.hasNameExpr then d else o)) :
      Refills (do
        let method ← (m.method.map (·.map c)).mapM (·.mapM refill)
        let expr2 ← (m.expr2.map c).mapM refill
        let expr3 ← (m.expr3.map c).mapM refill
        return { m.mapChildren c o with expr1, method, expr2, expr3 })
        ((Parameters.fallbacks? m.method).map d ++ (m.expr2.toList.map d ++ m.expr3.toList.map d))
        (m.mapChildren d o) := by
    subst hname
    exact (parameters? c d m.method).bind
      ((option c d m.expr2).bind ((option c d m.expr3).bind_pure rfl))
  have hkind : (m.mapChildren c o).hasNameExpr = m.hasNameExpr := rfl
  unfold Member.mapChildrenM
  by_cases h : m.hasNameExpr
  · have hexprs : m.exprs.map d = m.expr1.toList.map d ++
        ((Parameters.fallbacks? m.method).map d ++
          (m.expr2.toList.map d ++ m.expr3.toList.map d)) := by
      simp [Member.exprs, h]
    have hold : (m.mapChildren c o).expr1 = m.expr1.map c := by simp [Member.mapChildren, h]
    rw [hkind, if_pos h, hexprs, hold]
    exact (option c d m.expr1).bind (hrest _ (by rw [if_pos h]))
  · have hexprs : m.exprs.map d = (Parameters.fallbacks? m.method).map d ++
        (m.expr2.toList.map d ++ m.expr3.toList.map d) := by
      simp [Member.exprs, h]
    have hold : (m.mapChildren c o).expr1 = m.expr1.map o := by simp [Member.mapChildren, h]
    rw [hkind, if_neg h, pure_bind, hexprs, hold]
    exact hrest _ (by rw [if_neg h])

/-- All members are given new expressions: the local bindings in a first pass, the others in a
second one. -/
theorem members (ms : List (Member α)) :
    Refills (Member.mapAllM refill (ms.map (·.mapChildren c o))) ((Member.allExprs ms).map d)
      (ms.map (·.mapChildren d o)) := by
  have htaken (p : Member α → Bool) : ((ms.filter p).flatMap (·.exprs)).map d =
      ms.flatMap fun m => if p m then m.exprs.map d else [] := by
    induction ms with
    | nil => rfl
    | cons m ms ih => by_cases hm : p m <;> simp [hm, ih]
  let between (m : Member α) : Member β :=
    if m.isLocal then m.mapChildren d o else m.mapChildren c o
  have hlocals : Refills
      ((ms.map (·.mapChildren c o)).mapM fun m =>
        if m.isLocal then m.mapChildrenM refill else pure m)
      (ms.flatMap fun m => if m.isLocal then m.exprs.map d else []) (ms.map between) := by
    refine mapM fun m _ => ?_
    rw [Member.isLocal_mapChildren]
    by_cases h : m.isLocal
    · simpa only [between, if_pos h] using member c d o m
    · simpa only [between, if_neg h] using Refills.pure (m.mapChildren c o)
  -- The first pass keeps the kind of every member, so the second one finds the others as they were.
  have hothers : Refills
      ((ms.map between).mapM fun m => if m.isLocal then pure m else m.mapChildrenM refill)
      (ms.flatMap fun m => if m.isLocal then [] else m.exprs.map d)
      (ms.map (·.mapChildren d o)) := by
    refine mapM fun m _ => ?_
    by_cases h : m.isLocal
    · simpa only [between, if_pos h, Member.isLocal_mapChildren] using
        Refills.pure (m.mapChildren d o)
    · simpa only [between, if_neg h, Member.isLocal_mapChildren] using member c d o m
  refine (hlocals.bind hothers).congr ?_
  have hother (m : Member α) : (if m.isLocal then [] else m.exprs.map d) =
      if !m.isLocal then m.exprs.map d else [] := by
    cases m.isLocal <;> rfl
  simp only [Member.allExprs, List.map_append, htaken, hother]

/-! ### Forms -/

/-- The names, the bodies, the local bindings and the assertions of a lowered object are replaced,
in this order. -/
theorem loweredObject (x : LoweredObject α) :
    Refills (Form.mapChildrenM refill (.loweredObject (x.mapChildren c o)))
      ((Form.loweredObject x).children.map d) (.loweredObject (x.mapChildren d o)) := by
  let between (y : LoweredField α) : LoweredField β := { y.map c with name := d y.name }
  have hnames : Refills ((x.fields.map (·.map c)).mapM (·.mapNameM refill))
      (x.fields.map (d ·.name)) (x.fields.map between) :=
    mapM_one fun y _ => (one (c y.name) (d y.name)).bind_pure rfl
  have hbodies : Refills ((x.fields.map between).mapM (·.mapBodyM refill))
      (x.fields.map (d ·.body)) (x.fields.map (·.map d)) :=
    mapM_one fun y _ => (one (c y.body) (d y.body)).bind_pure rfl
  have hlocals : Refills ((x.locals.map (·.mapBody c o)).mapM (·.mapBodyM refill))
      (x.locals.map (d ·.body)) (x.locals.map (·.mapBody d o)) :=
    mapM_one fun b _ => bindingBody c d o b
  have hasserts : Refills ((x.asserts.map c).mapM refill) (x.asserts.map d) (x.asserts.map d) :=
    mapM_one fun a _ => one (c a) (d a)
  have hchildren : (Form.loweredObject x).children.map d = x.fields.map (d ·.name) ++
      (x.fields.map (d ·.body) ++ (x.locals.map (d ·.body) ++ x.asserts.map d)) := by
    simp [Form.children, Form.operands, Form.deferred, Function.comp_def]
  rw [hchildren]
  exact hnames.bind (hbodies.bind (hlocals.bind (hasserts.bind_pure rfl)))

/-- The children of a form are replaced. -/
theorem form (form : Form α) :
    Refills ((form.mapChildren c o).mapChildrenM refill) (form.children.map d)
      (form.mapChildren d o) := by
  have hone (a : α) : Refills (refill (c a)) [d a] (d a) := one (c a) (d a)
  cases form with
  | apply a =>
    exact .congr ((hone a.target).bind ((arguments c d a.arguments).bind_pure rfl))
      (by simp [Form.children, Form.operands, Form.deferred])
  | applyBrace left right => exact (hone left).bind ((hone right).bind_pure rfl)
  | array a =>
    have helements : Refills ((a.elements.map (·.map c)).mapM (·.mapM refill))
        (a.elements.map (d ·.expr)) (a.elements.map (·.map d)) :=
      mapM_one fun e _ => element c d e
    exact .congr (helements.bind_pure rfl)
      (by simp [Form.children, Form.operands, Form.deferred, Function.comp_def])
  | arrayComp a =>
    exact .congr ((hone a.body).bind ((clauses c d a.clauses).bind_pure rfl))
      (by simp [Form.children, Form.operands, Form.deferred])
  | assert a =>
    exact .congr
      ((hone a.condition).bind ((option c d a.message).bind ((hone a.rest).bind_pure rfl)))
      (by simp [Form.children, Form.operands, Form.deferred])
  | binary b => exact (hone b.left).bind ((hone b.right).bind_pure rfl)
  | conditional x =>
    exact .congr ((hone x.condition).bind ((hone x.yes).bind ((option c d x.no).bind_pure rfl)))
      (by simp [Form.children, Form.operands, Form.deferred])
  | error message => exact (hone message).map
  | function params body =>
    exact .congr ((parameters c d params).bind ((hone body).bind_pure rfl))
      (by simp [Form.children, Form.operands, Form.deferred])
  | index i =>
    exact .congr ((hone i.target).bind ((option c d i.index).bind_pure rfl))
      (by simp [Form.children, Form.operands, Form.deferred])
  | slice s =>
    exact .congr ((hone s.target).bind ((option c d s.start).bind ((option c d s.stop).bind
      ((option c d s.step).bind_pure rfl)))) (by simp [Form.children, Form.operands, Form.deferred])
  | inSuper i => exact (hone i.index).bind_pure rfl
  | locals binds body =>
    have hbinds : Refills ((binds.map (·.map c)).mapM (·.mapM refill))
        (binds.flatMap (·.exprs.map d)) (binds.map (·.map d)) := mapM fun b _ => binding c d b
    exact .congr (hbinds.bind ((hone body).bind_pure rfl))
      (by simp [Form.children, Form.operands, Form.deferred, List.map_flatMap])
  | object x =>
    exact .congr ((members c d o x.members).bind_pure rfl)
      (by simp [Form.children, Form.operands, Form.deferred])
  | loweredObject x => exact loweredObject c d o x
  | objectComp x =>
    exact .congr ((members c d o x.members).bind ((clauses c d x.clauses).bind_pure rfl))
      (by simp [Form.children, Form.operands, Form.deferred])
  | parens inner closeFodder => exact (hone inner).bind_pure rfl
  | superIndex s =>
    exact .congr ((option c d s.index).bind_pure rfl)
      (by simp [Form.children, Form.operands, Form.deferred])
  | unary op operand => exact (hone operand).map
  | importCode _ | importText _ => exact .pure _
  | dollar | boolean _ | null | number _ | string _ | self | var _ => exact .pure _

end Refills

/-- To change the children of a form in one way and then to replace them by the children that were
changed in another way is to change them in the other way. -/
theorem Form.withChildren_mapChildren (c d o : α → β) (form : Form α) :
    (form.mapChildren c o).withChildren (form.children.map d) = form.mapChildren d o := by
  have h := Refills.form c d o form []
  rw [List.append_nil] at h
  rw [withChildren, h]

/-- To replace the children of a form by changed ones is to change them in place. -/
theorem Form.withChildren_map (f : α → α) (form : Form α) :
    form.withChildren (form.children.map f) = form.mapChildren f id := by
  rw [← withChildren_mapChildren id f id, mapChildren_id]

/-- Where the other subexpressions are changed alike, only what is done to the children matters. -/
theorem Form.mapChildren_congr {child child' other : α → β} {form : Form α}
    (h : ∀ a ∈ form.children, child a = child' a) :
    form.mapChildren child other = form.mapChildren child' other := by
  rw [← withChildren_mapChildren child' child other, List.map_congr_left h,
    withChildren_mapChildren]

namespace Expr

variable {f g : Expr → Expr} {e : Expr}

/-- To replace the children of an expression by changed ones is to change them in place. -/
theorem withChildren_map (f : Expr → Expr) (e : Expr) :
    e.withChildren (e.children.map f) = e.mapChildren f := by
  rw [withChildren, children, Form.withChildren_map, mapChildren]

/-- An expression whose children are kept is kept. -/
@[simp] theorem mapChildren_id (e : Expr) : e.mapChildren id = e := by
  cases e
  simp [mapChildren]

/-- An expression that is given its own children is kept. -/
theorem withChildren_children (e : Expr) : e.withChildren e.children = e := by
  rw [← List.map_id e.children, withChildren_map, mapChildren_id]

/-- Only what is done to the children matters. -/
theorem mapChildren_congr (h : ∀ c ∈ e.children, f c = g c) : e.mapChildren f = e.mapChildren g := by
  rw [← withChildren_map, ← withChildren_map, List.map_congr_left h]

/-- The children of a changed expression are the changed children. -/
@[simp] theorem children_mapChildren : (e.mapChildren f).children = e.children.map f :=
  Form.children_mapChildren f id e.form

/-- Two changes of the children are one. -/
theorem mapChildren_mapChildren : (e.mapChildren f).mapChildren g = e.mapChildren (g ∘ f) := by
  simp [mapChildren]

end Expr

end JsonnetTree
