import JsonnetTree.Expr.FormLaws
import JsonnetTree.Expr.Recursion

/-!
# Laws of recursion

`Expr.para` computes what it promises: the result for an expression is that of its form, in
which every subexpression comes with its own result. So a property of all subexpressions of a
form can be assumed where it is proved for the expression (`Expr.induct`).
-/

namespace JsonnetTree

section Para

variable {β : Type} (step : Expr.Step β)

/-- An expression together with its result. -/
abbrev Expr.withResult (e : Expr) : Expr × β := (e, e.para step)

/-- The recursion through an expression that may be missing is a map. -/
theorem paraOption_eq (o : Option Expr) : paraOption step o = o.map (Expr.withResult step) := by
  cases o <;> rfl

/-- The recursion through a list of expressions is a map. -/
theorem paraExprs_eq (es : List Expr) : paraExprs step es = es.map (Expr.withResult step) := by
  induction es with
  | nil => rfl
  | cons e rest ih => simp [paraExprs, ih, Expr.withResult]

/-- The recursion through list elements is a map. -/
theorem paraElements_eq (es : List (Element Expr)) :
    paraElements step es = es.map (·.map (Expr.withResult step)) := by
  induction es with
  | nil => rfl
  | cons e rest ih => simp [paraElements, ih, Element.map]

/-- The recursion through arguments passed by name is a map. -/
theorem paraNamed_eq (as : List (NamedArgument Expr)) :
    paraNamed step as = as.map (·.map (Expr.withResult step)) := by
  induction as with
  | nil => rfl
  | cons a rest ih => simp [paraNamed, ih, NamedArgument.map]

/-- The recursion through parameters is a map. -/
theorem paraParameterList_eq (ps : List (Parameter Expr)) :
    paraParameterList step ps = ps.map (·.map (Expr.withResult step)) := by
  induction ps with
  | nil => rfl
  | cons p rest ih => simp [paraParameterList, ih, Parameter.map, paraOption_eq]

/-- The recursion through a parameter list is a map. -/
theorem paraParameters_eq (ps : Parameters Expr) :
    paraParameters step ps = ps.map (Expr.withResult step) := by
  simp [paraParameters, Parameters.map, paraParameterList_eq]

/-- The recursion through a parameter list that may be missing is a map. -/
theorem paraParameters?_eq (ps : Option (Parameters Expr)) :
    paraParameters? step ps = ps.map (·.map (Expr.withResult step)) := by
  cases ps <;> simp [paraParameters?, paraParameters_eq]

/-- The recursion through bindings is a map. -/
theorem paraBindings_eq (bs : List (Binding Expr)) :
    paraBindings step bs = bs.map (·.map (Expr.withResult step)) := by
  induction bs with
  | nil => rfl
  | cons b rest ih => simp [paraBindings, ih, Binding.map, paraParameters?_eq]

/-- The recursion through conditions is a map. -/
theorem paraConditions_eq (cs : List (Condition Expr)) :
    paraConditions step cs = cs.map (·.map (Expr.withResult step)) := by
  induction cs with
  | nil => rfl
  | cons c rest ih => simp [paraConditions, ih, Condition.map]

/-- The recursion through comprehension clauses is a map. -/
theorem paraClauses_eq (cs : Clauses Expr) : paraClauses step cs = cs.map (Expr.withResult step) := by
  induction cs with
  | outermost c => simp [paraClauses, Clauses.map, Clause.map, paraConditions_eq]
  | inside outer c ih => simp [paraClauses, Clauses.map, Clause.map, paraConditions_eq, ih]

/-- The recursion through members of an object is a map. -/
theorem paraMembers_eq (ms : List (Member Expr)) :
    paraMembers step ms = ms.map (·.map (Expr.withResult step)) := by
  induction ms with
  | nil => rfl
  | cons m rest ih => simp [paraMembers, ih, Member.map, paraParameters?_eq, paraOption_eq]

/-- The recursion through fields of a lowered object is a map. -/
theorem paraFields_eq (ds : List (LoweredField Expr)) :
    paraFields step ds = ds.map (·.map (Expr.withResult step)) := by
  induction ds with
  | nil => rfl
  | cons d rest ih => simp [paraFields, ih, LoweredField.map]

/-- The recursion through a form is a map. -/
theorem paraForm_eq (form : Form Expr) : paraForm step form = form.map (Expr.withResult step) := by
  cases form <;>
    simp [paraForm, Form.map, Arguments.map, paraOption_eq, paraExprs_eq, paraElements_eq,
      paraNamed_eq, paraParameters_eq, paraBindings_eq, paraClauses_eq, paraMembers_eq,
      paraFields_eq]

/-- The result for an expression is that of its form, in which every subexpression is paired
with its own result. -/
theorem Expr.para_eq (e : Expr) : e.para step = step e (e.form.map (Expr.withResult step)) := by
  cases e
  simp [Expr.para, paraForm_eq]

end Para

namespace Expr

/-- The result for an expression is made from those for its children. -/
theorem fold_eq {β : Type} (f : Expr → List β → β) (e : Expr) :
    e.fold f = f e (e.children.map (fold f)) := by
  rw [fold, para_eq]
  simp [children, Function.comp_def]

/-- The height of an expression is one more than the largest height of its parts. -/
theorem height_eq (e : Expr) : e.height = (e.form.parts.map height).foldr max 0 + 1 := by
  rw [height, para_eq]
  simp [Function.comp_def]

/-- A subexpression has fewer levels than the expression. -/
theorem height_lt_of_mem_parts {e part : Expr} (h : part ∈ e.form.parts) :
    part.height < e.height := by
  have hle (parts : List Expr) (hpart : part ∈ parts) :
      part.height ≤ (parts.map height).foldr max 0 := by
    induction parts with
    | nil => cases hpart
    | cons first rest ih =>
      rcases List.mem_cons.1 hpart with rfl | hpart
      · exact Nat.le_max_left _ _
      · exact Nat.le_trans (ih hpart) (Nat.le_max_right _ _)
  rw [e.height_eq]
  exact Nat.lt_succ_of_le (hle _ h)

/-- Induction over expressions, with the property at hand for all subexpressions. -/
theorem induct {motive : Expr → Prop}
    (h : ∀ e : Expr, (∀ part ∈ e.form.parts, motive part) → motive e) (e : Expr) : motive e :=
  h e fun part _ => induct h part
termination_by e.height
decreasing_by exact height_lt_of_mem_parts (by assumption)

end Expr

end JsonnetTree
