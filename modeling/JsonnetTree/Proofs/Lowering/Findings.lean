import JsonnetTree.Proofs.Lowering
import Mathlib.Algebra.Order.Group.Multiset
import Mathlib.Data.List.Nodup
import Mathlib.Data.List.Perm.Basic

/-!
# What is found in a lowered expression

Lowering takes the members of object literals apart, puts their expressions in another order and
makes new expressions around them. Whatever cannot be found at the expressions that it makes is
found in the lowered expression as often as before (`Expr.findings_lower_perm`), provided that no
member has a part that lowering drops.
-/

namespace JsonnetTree

variable {α : Type}

/-! ## Members without parts that lowering drops -/

/-- A member has no parts that lowering drops: only an assertion has a message, and no assertion has
parameters. -/
def Member.IsRegular (m : Member α) : Prop :=
  (m.kind ≠ .assert → m.expr3 = none) ∧ (m.kind = .assert → m.method = none)

instance (m : Member α) : Decidable m.IsRegular :=
  inferInstanceAs (Decidable (_ ∧ _))

/-- A regular member is so after a change of its expressions. -/
theorem Member.IsRegular.mapChildren {β : Type} {child other : α → β} {m : Member α}
    (h : m.IsRegular) : (m.mapChildren child other).IsRegular := by
  refine ⟨fun hkind => ?_, fun hkind => ?_⟩
  · simp [Member.mapChildren, h.1 hkind]
  · simp [Member.mapChildren, h.2 hkind]

namespace Expr

/-- All members of object literals that can be reached are regular. -/
def IsRegular (e : Expr) : Prop :=
  ∀ a o, e.Reaches a → a.form = .object o → ∀ m ∈ o.members, m.IsRegular

/-- The members of an object literal. -/
def membersHere (e : Expr) : List (Member Expr) :=
  match e.form with
  | .object o => o.members
  | _ => []

/-- Whether the members are regular can be seen from the list of all expressions. -/
theorem isRegular_iff {e : Expr} :
    e.IsRegular ↔ ∀ m ∈ e.preorder.flatMap membersHere, m.IsRegular := by
  constructor
  · intro h m hm
    obtain ⟨a, ha, hm⟩ := List.mem_flatMap.mp hm
    unfold membersHere at hm
    split at hm
    next o ho => exact h a o (mem_preorder_iff.mp ha) ho m hm
    next => cases hm
  · intro h a o ha ho m hm
    refine h m (List.mem_flatMap.mpr ⟨a, mem_preorder_iff.mpr ha, ?_⟩)
    rwa [membersHere, ho]

/-! ## Findings -/

/-- What is found at the expressions that can be reached, parents before children. -/
def findings (found : Expr → List α) (e : Expr) : List α :=
  e.preorder.flatMap found

/-- What is found at an expression comes first, then what is found below its children. -/
theorem findings_eq (found : Expr → List α) (e : Expr) :
    e.findings found = found e ++ e.children.flatMap (findings found) := by
  rw [findings, preorder_eq, List.flatMap_cons, List.flatMap_assoc]
  rfl

end Expr

/-- The forms of expressions that lowering makes. -/
def Form.isMade : Form α → Bool
  | .string _ | .boolean _ | .conditional _ | .error _ | .function _ _ | .loweredObject _ => true
  | _ => false

/-- Nothing is found at the expressions that lowering makes, and fodder does not matter, which it
takes off the names of fields. -/
structure Expr.OutlivesLowering (found : Expr → List α) : Prop where
  made {e : Expr} (h : e.form.isMade = true) : found e = []
  fodder (e : Expr) (fodder : Fodder) : found { e with fodder } = found e

section

variable {found : Expr → List α} (hfound : Expr.OutlivesLowering found)

include hfound

namespace Expr

/-- Nothing is found in a string. -/
theorem findings_string (value : String) : (Build.string value).findings found = [] := by
  rw [findings_eq, hfound.made rfl]
  rfl

/-- What an assertion is lowered to holds what is found in its condition and its message. -/
theorem findings_assertion (location : Location) (condition message : Expr) :
    ({ Build.conditional condition (Build.boolean true) (some (Build.error message)) with
        location } : Expr).findings found =
      condition.findings found ++ message.findings found := by
  have htrue : (Build.boolean true).findings found = [] := by
    rw [findings_eq, hfound.made rfl]
    rfl
  have herror : (Build.error message).findings found = message.findings found := by
    rw [findings_eq, hfound.made rfl]
    exact List.append_nil _
  rw [findings_eq, hfound.made rfl]
  simp [children, Build.conditional, ofForm, Form.children, Form.operands, Form.deferred, htrue,
    herror]

/-- An expression without its fodder holds the same. -/
theorem findings_fodder (e : Expr) (fodder : Fodder) :
    ({ e with fodder } : Expr).findings found = e.findings found := by
  rw [findings_eq, hfound.fodder, findings_eq found e]
  rfl

end Expr

namespace Member

variable {m : Member Expr} {owner : Location}

/-- What is found in the lowered value of a member. -/
theorem findings_loweredValue {value : Expr} (h : m.loweredValue = .ok value) :
    value.findings found =
      (Parameters.fallbacks? m.method ++ m.expr2.toList).flatMap (Expr.findings found) := by
  obtain ⟨body, hbody, ⟨hmethod, rfl⟩ | ⟨params, hmethod, rfl⟩⟩ := loweredValue_eq_ok h
  · simp [hbody, hmethod, Parameters.fallbacks?]
  · rw [Expr.findings_eq, hfound.made rfl]
    simp [hbody, hmethod, Parameters.fallbacks?, Expr.children, Expr.ofForm, Form.children,
      Form.operands, Form.deferred]

/-- What is found in the lowered name of a field. -/
theorem findings_loweredName {name : Expr} (hkind : m.kind = .fieldId ∨ m.hasNameExpr = true)
    (h : m.loweredName = .ok name) :
    name.findings found =
      (if m.hasNameExpr then m.expr1.toList else []).flatMap (Expr.findings found) := by
  obtain ⟨text, hfield, -, rfl⟩ | ⟨e, hne, he, rfl⟩ := loweredName_eq_ok h
  · simp [hasNameExpr, hfield, Expr.findings_string hfound]
  · simp [hkind.resolve_left hne, he, Expr.findings_fodder hfound]

/-- A lowered member holds what is found in the expressions of the member. -/
theorem findings_lower (hm : m.IsRegular) {o : LoweredObject Expr} (h : m.lower owner = .ok o) :
    (Form.loweredObject o).children.flatMap (Expr.findings found) =
      m.exprs.flatMap (Expr.findings found) := by
  obtain ⟨hkind, name, body, -, hbody, rfl⟩ | ⟨hkind, condition, hcondition, rfl⟩ |
    ⟨hkind, name, body, hname, hbody, rfl⟩ := lower_eq_ok_iff.mp h
  · have hmessage : m.expr3 = none := hm.1 (by simp [hkind])
    simp [Form.children, Form.operands, Form.deferred, LoweredObject.empty, exprs, hasNameExpr,
      hkind, hmessage, findings_loweredValue hfound hbody]
  · have hmethod : m.method = none := hm.2 hkind
    have hmessage : (m.expr3.getD (Build.string defaultAssertMessage)).findings found =
        m.expr3.toList.flatMap (Expr.findings found) := by
      cases m.expr3 with
      | none => exact Expr.findings_string hfound _
      | some message => simp
    simp [Form.children, Form.operands, Form.deferred, LoweredObject.empty, exprs, hasNameExpr,
      hkind, hmethod, hcondition, Parameters.fallbacks?, Expr.findings_assertion hfound, hmessage]
  · have hmessage : m.expr3 = none := hm.1 (by rintro h; simp [h, hasNameExpr] at hkind)
    simp [Form.children, Form.operands, Form.deferred, LoweredObject.empty, exprs, hmessage,
      findings_loweredName hfound hkind hname, findings_loweredValue hfound hbody]

end Member

end

/-- The children of two objects together are those of both, in another order. -/
theorem LoweredObject.children_append_perm (a b : LoweredObject Expr) :
    (Form.loweredObject (a.append b)).children.Perm
      ((Form.loweredObject a).children ++ (Form.loweredObject b).children) := by
  rw [← Multiset.coe_eq_coe]
  simp only [Form.children, Form.operands, Form.deferred, LoweredObject.append, List.map_append,
    ← Multiset.coe_add]
  ac_rfl

/-- The expressions of members are those of each member, in another order. -/
theorem Member.allExprs_perm (ms : List (Member α)) :
    (allExprs ms).Perm (ms.flatMap (·.exprs)) := by
  rw [allExprs, ← List.flatMap_append]
  exact (List.filter_append_perm (·.isLocal) ms).flatMap_right _

section

variable {found found' : Expr → List α} (hfound : Expr.OutlivesLowering found)

include hfound

/-- Lowered members hold what is found in the members, in another order. -/
theorem Member.findings_lower_perm {ms : List (Member Expr)} {parts : List (LoweredObject Expr)}
    {owner : Location} (hms : ∀ m ∈ ms, m.IsRegular)
    (h : List.Forall₂ (fun m part => m.lower owner = .ok part) ms parts) :
    ((Form.loweredObject (parts.foldr LoweredObject.append .empty)).children.flatMap
      (Expr.findings found)).Perm ((ms.flatMap (·.exprs)).flatMap (Expr.findings found)) := by
  induction h with
  | nil => exact .nil
  | @cons m part ms parts hm _ ih =>
    obtain ⟨hfirst, hrest⟩ := List.forall_mem_cons.mp hms
    have hboth := (LoweredObject.children_append_perm part
      (parts.foldr LoweredObject.append .empty)).flatMap_right (Expr.findings found)
    rw [List.flatMap_append, Member.findings_lower hfound hfirst hm] at hboth
    rw [List.flatMap_cons, List.flatMap_append]
    exact hboth.trans ((ih hrest).append_left _)

/-- A lowered object holds what is found in its members, in another order. -/
theorem ObjectLiteral.findings_lower_perm {literal : ObjectLiteral Expr} {owner : Location}
    {o : LoweredObject Expr} (hmembers : ∀ m ∈ literal.members, m.IsRegular)
    (h : literal.lower owner = .ok o) :
    ((Form.loweredObject o).children.flatMap (Expr.findings found)).Perm
      ((Member.allExprs literal.members).flatMap (Expr.findings found)) := by
  obtain ⟨parts, hparts, h⟩ := Outcome.bind_eq_ok h
  obtain rfl := Except.ok.inj h
  exact (Member.findings_lower_perm hfound hmembers (Outcome.mapM_eq_ok hparts)).trans
    ((Member.allExprs_perm literal.members).flatMap_right _).symm

/-- A lowered expression holds what is found in the expression, in another order. Where something is
found, it may be changed by the lowering of the children. -/
theorem Expr.findings_lower_perm (hobject : ∀ e o, e.form = .object o → found' e = [])
    (hother : ∀ e, (∀ o, e.form ≠ .object o) → found (e.mapChildren lowered) = found' e)
    {e l : Expr} (hregular : e.IsRegular) (h : e.lower = .ok l) :
    (l.findings found).Perm (e.findings found') := by
  induction e using induct_children generalizing l with
  | h e ih =>
    have hchildren : ((e.children.map lowered).flatMap (findings found)).Perm
        (e.children.flatMap (findings found')) := by
      rw [List.flatMap_map]
      refine .flatMap_left _ fun c hc => ?_
      obtain ⟨c', hc'⟩ := (lower_eq_ok_iff.mp h).1 c hc
      rw [lowered_of_lower hc']
      exact ih c hc (fun a o ha => hregular a o (.child hc ha)) hc'
    rw [l.findings_eq, e.findings_eq]
    obtain ⟨o, lo, hform, hlower, rfl⟩ | ⟨hnone, rfl⟩ := lower_cases h
    · have hregular' : ∀ m ∈ o.members.map (·.mapChildren lowered id), m.IsRegular :=
        List.forall_mem_map.mpr fun m hm => (hregular e o (.refl e) hform m hm).mapChildren
      have hmembers : e.children = Member.allExprs o.members := by
        simp [children, hform, Form.children, Form.operands, Form.deferred]
      have hlowered := ObjectLiteral.findings_lower_perm hfound hregular' hlower
      rw [Member.allExprs_mapChildren, ← hmembers] at hlowered
      rw [hfound.made rfl, hobject e o hform]
      exact hlowered.trans hchildren
    · rw [hother e hnone, children_mapChildren]
      exact hchildren.append_left _

end

end JsonnetTree
