import JsonnetTree.Expansion
import JsonnetTree.Expr.RecursionLaws

/-!
# Reachable expressions

Which expressions can be reached from an expression by going from parents to children.
`Expr.preorder` lists exactly these.
-/

namespace JsonnetTree

namespace Expr

/-- An expression is reached from another one by going to a child any number of times. -/
inductive Reaches : Expr → Expr → Prop
  | refl (e : Expr) : Reaches e e
  | child {e c a : Expr} (hchild : c ∈ e.children) (h : Reaches c a) : Reaches e a

/-- Induction over expressions, with the property at hand for all children. -/
theorem induct_children {motive : Expr → Prop}
    (h : ∀ e : Expr, (∀ c ∈ e.children, motive c) → motive e) (e : Expr) : motive e :=
  Expr.induct (fun e ih => h e fun c hc => ih c (Form.mem_parts_of_mem_children hc)) e

/-- What an expression reaches is itself or is reached from one of its children. -/
theorem reaches_iff {e a : Expr} : e.Reaches a ↔ a = e ∨ ∃ c ∈ e.children, c.Reaches a := by
  constructor
  · intro h
    cases h with
    | refl => exact .inl rfl
    | child hchild h => exact .inr ⟨_, hchild, h⟩
  · rintro (rfl | ⟨c, hchild, h⟩)
    · exact .refl a
    · exact .child hchild h

/-- What is reached from a reached expression is reached. -/
theorem Reaches.trans {e a b : Expr} (h : e.Reaches a) (h' : a.Reaches b) : e.Reaches b := by
  induction h with
  | refl => exact h'
  | child hchild _ ih => exact .child hchild (ih h')

/-- Everything below an expression has a parent there. -/
theorem Reaches.eq_or_exists_parent {e a : Expr} (h : e.Reaches a) :
    a = e ∨ ∃ b, e.Reaches b ∧ a ∈ b.children := by
  induction h with
  | refl e => exact .inl rfl
  | @child e c a hchild _ ih =>
    rcases ih with rfl | ⟨b, hb, ha⟩
    · exact .inr ⟨e, .refl e, hchild⟩
    · exact .inr ⟨b, .child hchild hb, ha⟩

/-- The parent comes first, then all that its children reach, child by child. -/
theorem preorder_eq (e : Expr) : e.preorder = e :: e.children.flatMap preorder := by
  rw [preorder, fold_eq]
  rfl

/-- The listed expressions are those that can be reached. -/
theorem mem_preorder_iff {e a : Expr} : a ∈ e.preorder ↔ e.Reaches a := by
  induction e using induct_children with
  | h e ih =>
    rw [preorder_eq, List.mem_cons, List.mem_flatMap, reaches_iff]
    refine or_congr_right (exists_congr fun c => and_congr_right fun hc => ?_)
    exact ih c hc

end Expr

end JsonnetTree
