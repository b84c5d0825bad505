import JsonnetTree.Expr.Children

/-!
# Laws of forms

To replace every subexpression of a form and then list its children is to list them first and
then replace each (`Form.children_map`). The same holds for all parts of a form. Every child is
a subexpression (`Form.mem_parts_of_mem_children`). What is read of comprehension clauses with the
outer ones first is read in the order in which they are written (`Clauses.eq_flatMap_toList`).
-/

namespace JsonnetTree

variable {α β : Type} (f : α → β)

/-- Mapping arguments maps their expressions. -/
@[simp] theorem Arguments.exprs_map (a : Arguments α) : (a.map f).exprs = a.exprs.map f := by
  simp [Arguments.exprs, Arguments.map, Element.map, NamedArgument.map, Function.comp_def]

/-- Mapping a parameter list maps its default values. -/
@[simp] theorem Parameters.fallbacks_map (ps : Parameters α) :
    (ps.map f).fallbacks = ps.fallbacks.map f := by
  rw [Parameters.fallbacks, Parameters.fallbacks, Parameters.map, List.filterMap_map,
    List.map_filterMap]
  rfl

/-- Mapping a parameter list that may be missing maps its default values. -/
@[simp] theorem Parameters.fallbacks?_map (ps? : Option (Parameters α)) :
    Parameters.fallbacks? (ps?.map (·.map f)) = (Parameters.fallbacks? ps?).map f := by
  cases ps? <;> simp [Parameters.fallbacks?]

/-- Mapping a binding maps its expressions. -/
@[simp] theorem Binding.exprs_map (b : Binding α) : (b.map f).exprs = b.exprs.map f := by
  simp [Binding.exprs, Binding.map]

/-- Mapping a clause maps its expressions. -/
@[simp] theorem Clause.exprs_map (c : Clause α) : (c.map f).exprs = c.exprs.map f := by
  simp [Clause.exprs, Clause.map, Condition.map, Function.comp_def]

/-- Mapping clauses maps their expressions. -/
@[simp] theorem Clauses.exprs_map (cs : Clauses α) : (cs.map f).exprs = cs.exprs.map f := by
  induction cs with
  | outermost clause => simp [Clauses.map, Clauses.exprs]
  | inside outer clause ih => simp [Clauses.map, Clauses.exprs, ih]

namespace Clauses

/-- The clauses that are collected come after those that were seen. -/
theorem collectOutward_eq (cs : Clauses α) (seen : List (Clause α)) :
    cs.collectOutward seen = seen ++ cs.inwardOut := by
  induction cs generalizing seen with
  | outermost clause => rfl
  | inside outer clause ih =>
    rw [inwardOut, collectOutward, collectOutward, ih, ih ([] ++ [clause]), List.nil_append,
      List.append_assoc]

/-- The innermost clause comes before those around it. -/
theorem inwardOut_inside (outer : Clauses α) (clause : Clause α) :
    (Clauses.inside outer clause).inwardOut = clause :: outer.inwardOut :=
  outer.collectOutward_eq [clause]

/-- An outermost clause is written alone. -/
@[simp] theorem toList_outermost (clause : Clause α) :
    (Clauses.outermost clause).toList = [clause] := rfl

/-- A clause is written after those around it. -/
@[simp] theorem toList_inside (outer : Clauses α) (clause : Clause α) :
    (Clauses.inside outer clause).toList = outer.toList ++ [clause] := by
  rw [toList, inwardOut_inside, List.reverse_cons, toList]

/-- Mapping clauses maps each of them. -/
@[simp] theorem toList_map (cs : Clauses α) : (cs.map f).toList = cs.toList.map (·.map f) := by
  induction cs with
  | outermost clause => rfl
  | inside outer clause ih => simp [map, ih]

/-- Whatever is read of the outer clauses first, and then of the innermost one, is read of the
clauses in the order in which they are written. -/
theorem eq_flatMap_toList {read : Clauses α → List β} {one : Clause α → List β}
    (houtermost : ∀ clause, read (.outermost clause) = one clause)
    (hinside : ∀ outer clause, read (.inside outer clause) = read outer ++ one clause)
    (cs : Clauses α) : read cs = cs.toList.flatMap one := by
  induction cs with
  | outermost clause => rw [houtermost, toList_outermost, List.flatMap_singleton]
  | inside outer clause ih =>
    rw [hinside, ih, toList_inside, List.flatMap_append, List.flatMap_singleton]

/-- The expressions of clauses are those of each clause, in the order of writing. -/
theorem exprs_eq_flatMap (cs : Clauses α) : cs.exprs = cs.toList.flatMap Clause.exprs :=
  eq_flatMap_toList (fun _ => rfl) (fun _ _ => rfl) cs

end Clauses

namespace Member

/-- Mapping a member keeps whether it is a local binding. -/
@[simp] theorem isLocal_map (m : Member α) : (m.map f).isLocal = m.isLocal := rfl

/-- Mapping a member maps its expressions. -/
@[simp] theorem exprs_map (m : Member α) : (m.map f).exprs = m.exprs.map f := by
  by_cases h : m.kind = .fieldStr ∨ m.kind = .fieldExpr <;>
    simp [Member.exprs, Member.hasNameExpr, Member.map, Option.toList_map, h]

/-- Mapping a member maps all its parts. -/
@[simp] theorem parts_map (m : Member α) : (m.map f).parts = m.parts.map f := by
  simp [Member.parts, Member.map, Option.toList_map]

/-- Mapping members maps their expressions, in the same order. -/
@[simp] theorem allExprs_map (ms : List (Member α)) :
    allExprs (ms.map (·.map f)) = (allExprs ms).map f := by
  simp [allExprs, List.filter_map, List.flatMap_map, List.map_flatMap, Function.comp_def]

end Member

namespace Form

/-- Mapping a form maps its operands. -/
theorem operands_map (form : Form α) : (form.map f).operands = form.operands.map f := by
  cases form <;>
    simp [Form.map, operands, Element.map, LoweredField.map, Option.toList_map,
      List.flatMap_map, List.map_flatMap, Function.comp_def]

/-- Mapping a form maps its deferred children. -/
theorem deferred_map (form : Form α) : (form.map f).deferred = form.deferred.map f := by
  cases form <;>
    simp [Form.map, deferred, LoweredField.map, Binding.map, Function.comp_def]

/-- The children of a form with every subexpression replaced. -/
@[simp] theorem children_map (form : Form α) : (form.map f).children = form.children.map f := by
  simp [children, operands_map, deferred_map]

/-- The subexpressions of a form with every subexpression replaced. -/
@[simp] theorem parts_map (form : Form α) : (form.map f).parts = form.parts.map f := by
  cases form <;>
    simp [Form.map, parts, Element.map, LoweredField.map, Option.toList_map,
      List.flatMap_map, List.map_flatMap, Function.comp_def]

/-- The subexpression that a form starts with, after every subexpression is replaced. -/
@[simp] theorem leftmost?_map (form : Form α) : (form.map f).leftmost? = form.leftmost?.map f := by
  cases form <;> rfl

end Form

/-! ## Children and subexpressions -/

/-- The expressions of a member are among its parts. -/
theorem Member.mem_parts_of_mem_exprs {a : α} {m : Member α} (h : a ∈ m.exprs) : a ∈ m.parts := by
  by_cases hn : m.hasNameExpr
  · simpa [Member.exprs, Member.parts, hn] using h
  · simp only [Member.parts, List.append_assoc]
    exact List.mem_append_right _ (by simpa [Member.exprs, hn] using h)

/-- The expressions of members are among their parts. -/
theorem Member.mem_parts_of_mem_allExprs {a : α} {ms : List (Member α)}
    (h : a ∈ Member.allExprs ms) : a ∈ ms.flatMap (·.parts) := by
  simp only [Member.allExprs, List.mem_append, List.mem_flatMap, List.mem_filter] at h ⊢
  rcases h with ⟨m, ⟨hm, _⟩, h⟩ | ⟨m, ⟨hm, _⟩, h⟩ <;> exact ⟨m, hm, mem_parts_of_mem_exprs h⟩

/-- A child is a subexpression. -/
theorem Form.mem_parts_of_mem_children {a : α} {form : Form α} (h : a ∈ form.children) :
    a ∈ form.parts := by
  cases form with
  | object o =>
    exact Member.mem_parts_of_mem_allExprs (by simpa [children, operands, deferred] using h)
  | objectComp o =>
    have h : a ∈ Member.allExprs o.members ∨ a ∈ o.clauses.exprs := by
      simpa [children, operands, deferred] using h
    exact List.mem_append.2 (h.imp_left Member.mem_parts_of_mem_allExprs)
  | loweredObject o =>
    simp only [children, operands, deferred, List.mem_append, List.mem_map] at h
    simp only [parts, List.mem_append, List.mem_flatMap, List.mem_cons, List.not_mem_nil, or_false]
    rcases h with ⟨d, hd, rfl⟩ | (⟨d, hd, rfl⟩ | ⟨b, hb, rfl⟩) | h
    · exact .inl (.inr ⟨d, hd, .inl rfl⟩)
    · exact .inl (.inr ⟨d, hd, .inr rfl⟩)
    · exact .inr ⟨b, hb, by simp [Binding.exprs]⟩
    · exact .inl (.inl h)
  | importCode _ | importText _ => cases h
  | dollar | boolean _ | null | number _ | string _ | self | var _ => cases h
  | _ => simpa [children, operands, deferred, parts] using h

end JsonnetTree
