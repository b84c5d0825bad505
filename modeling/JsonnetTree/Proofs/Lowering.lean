import JsonnetTree.Proofs.Expr.MapChildren
import JsonnetTree.Proofs.Shape

/-!
# Lowering level by level

Where lowering succeeds it is a function, `Expr.lowered`. An expression is lowered by lowering its
children in place and then the expression itself (`Expr.lower_eq_ok_iff`), which changes object
literals only (`Expr.lower_cases`).
-/

namespace JsonnetTree

namespace Expr

variable {e l : Expr}

/-- The lowered expression, or the expression itself if it cannot be lowered. -/
def lowered (e : Expr) : Expr :=
  e.lower.toOption.getD e

/-- The lowered expression is what lowering returns. -/
theorem lowered_of_lower (h : e.lower = .ok l) : e.lowered = l := by
  rw [lowered, h]
  rfl

/-- An expression that can be lowered is lowered to this. -/
theorem lower_eq_lowered (h : e.lower.isOk = true) : e.lower = .ok e.lowered := by
  cases hlower : e.lower with
  | error err =>
    rw [hlower] at h
    cases h
  | ok l => rw [lowered_of_lower hlower]

/-- An expression is lowered if and only if its children are, and the expression with the lowered
children is. -/
theorem lower_eq_ok_iff :
    e.lower = .ok l ↔
      (∀ c ∈ e.children, ∃ c', c.lower = .ok c') ∧ (e.mapChildren lowered).lowerHere = .ok l := by
  rw [lower_eq]
  constructor
  · intro h
    obtain ⟨new, hnew, h⟩ := Outcome.bind_eq_ok h
    have hall := Outcome.mapM_eq_ok hnew
    have hmap : new = e.children.map lowered :=
      Outcome.eq_map_of_forall₂ (hall.imp fun c c' hc => (lowered_of_lower hc).symm)
    rw [hmap, withChildren_map] at h
    refine ⟨fun c hc => ?_, h⟩
    obtain ⟨c', -, hc'⟩ := Outcome.exists_of_mem_left hall c hc
    exact ⟨c', hc'⟩
  · rintro ⟨hchildren, h⟩
    have hall : e.children.mapM lower = .ok (e.children.map lowered) := by
      refine Outcome.mapM_of_forall₂ (List.forall₂_map_right_iff.mpr (List.forall₂_same.mpr ?_))
      intro c hc
      obtain ⟨c', hc'⟩ := hchildren c hc
      rw [lowered_of_lower hc', hc']
    rw [← withChildren_map] at h
    rw [hall]
    exact h

/-- An expression that is no object literal is lowered to itself. -/
theorem lowerHere_of_other (h : ∀ o, e.form ≠ .object o) : e.lowerHere = .ok e := by
  unfold lowerHere
  split
  next o ho => exact absurd ho (h o)
  next => rfl

/-- Changing children makes no object literal. -/
theorem mapChildren_ne_object {f : Expr → Expr} (h : ∀ o, e.form ≠ .object o) :
    ∀ o, (e.mapChildren f).form ≠ .object o := by
  intro o ho
  rw [mapChildren] at ho
  cases hform : e.form with
  | object o' => exact h o' hform
  | _ =>
    rw [hform] at ho
    cases ho

/-- An object literal with lowered children is lowered, and any other expression is kept. -/
theorem lower_cases (h : e.lower = .ok l) :
    (∃ o lo, e.form = .object o ∧
        ObjectLiteral.lower ⟨o.members.map (·.mapChildren lowered id), o.trailingComma,
          o.closeFodder⟩ e.location = .ok lo ∧
        l = { e with form := .loweredObject lo }) ∨
      (∀ o, e.form ≠ .object o) ∧ l = e.mapChildren lowered := by
  obtain ⟨-, h⟩ := lower_eq_ok_iff.mp h
  by_cases hobject : ∃ o, e.form = .object o
  · obtain ⟨o, ho⟩ := hobject
    have hform : (e.mapChildren lowered).form = .object ⟨o.members.map (·.mapChildren lowered id),
        o.trailingComma, o.closeFodder⟩ := by
      rw [mapChildren, ho, Form.mapChildren]
    rw [lowerHere, hform] at h
    obtain ⟨lo, hlower, h⟩ := Outcome.bind_eq_ok h
    exact .inl ⟨o, lo, ho, hlower, (Except.ok.inj h).symm⟩
  · have hother : ∀ o, e.form ≠ .object o := fun o ho => hobject ⟨o, ho⟩
    rw [lowerHere_of_other (mapChildren_ne_object hother)] at h
    exact .inr ⟨hother, (Except.ok.inj h).symm⟩

/-- An expression that is no object literal is lowered by lowering its children. -/
theorem lower_of_other (h : ∀ o, e.form ≠ .object o)
    (hchildren : ∀ c ∈ e.children, ∃ c', c.lower = .ok c') : e.lower = .ok (e.mapChildren lowered) :=
  lower_eq_ok_iff.mpr ⟨hchildren, lowerHere_of_other (mapChildren_ne_object h)⟩

/-- A lowered expression keeps its fodder. -/
theorem fodder_of_lower (h : e.lower = .ok l) : l.fodder = e.fodder := by
  obtain ⟨o, lo, -, -, rfl⟩ | ⟨-, rfl⟩ := lower_cases h
  · rfl
  · rfl

/-- All that is reached from an expression is lowered with it. -/
theorem Reaches.exists_lower {a : Expr} (ha : e.Reaches a) (h : e.lower = .ok l) :
    ∃ a', a.lower = .ok a' := by
  induction ha generalizing l with
  | refl => exact ⟨l, h⟩
  | child hchild _ ih =>
    obtain ⟨c', hc'⟩ := (lower_eq_ok_iff.mp h).1 _ hchild
    exact ih hc'

end Expr

/-- A raw tree within the limit is lowered if its root can be. -/
theorem Tree.lower_of_root {t : Tree} {limit : Nat} (hraw : t.shape = .raw)
    (hdepth : t.root.checkDepth limit = .ok ()) (hroot : t.root.lower.isOk = true) :
    t.lower limit = .ok { t with shape := .lowered, root := t.root.lowered } := by
  rw [lower, if_neg (by simpa using hraw), hdepth, Expr.lower_eq_lowered hroot]
  rfl

end JsonnetTree
