import JsonnetTree.Lowering
import JsonnetTree.Proofs.Document.RoundTrip
import JsonnetTree.Proofs.Expansion.Basic
import JsonnetTree.Proofs.Expr.Children
import JsonnetTree.Proofs.Expr.Reach
import JsonnetTree.Proofs.Expr.Search
import JsonnetTree.Proofs.Outcome

/-!
# Shapes are kept

The check of the shape fails exactly on the trees in which a misplaced object can be reached, and
reports the first one that its search meets (`Tree.checkShape_first_misplaced`).

A tree that is loaded has the objects that its shape declares, and every pass keeps it so:
lowering leaves no object literal behind, and expansion only copies what is in the tree. So the
shape of a tree can be relied on after any number of passes (`Tree.checkShape_run`).
-/

namespace JsonnetTree

/-! ## Expressions that fit a shape -/

/-- No expression that can be reached is forbidden in trees of this shape. -/
def Expr.Fits (shape : Shape) (e : Expr) : Prop :=
  ∀ a, e.Reaches a → shape.forbids a.form = false

namespace Expr

variable {shape : Shape} {e : Expr}

/-- An expression fits if its own form is allowed and its children fit. -/
theorem fits_iff : e.Fits shape ↔ shape.forbids e.form = false ∧ ∀ c ∈ e.children, c.Fits shape := by
  constructor
  · intro h
    exact ⟨h e (.refl e), fun c hc a ha => h a (.child hc ha)⟩
  · rintro ⟨hform, hchildren⟩ a ha
    rcases reaches_iff.mp ha with rfl | ⟨c, hc, ha⟩
    · exact hform
    · exact hchildren c hc a ha

/-- Only the form of an expression matters to whether it fits. -/
theorem Fits.of_form_eq {a : Expr} (h : e.Fits shape) (hform : a.form = e.form) : a.Fits shape := by
  rw [fits_iff] at h ⊢
  simpa only [children, hform] using h

/-- Expressions that are made of others fit if those do. -/
theorem fits_ofForm {form : Form Expr} (hform : shape.forbids form = false)
    (h : ∀ c ∈ form.children, c.Fits shape) : (Expr.ofForm form).Fits shape :=
  fits_iff.mpr ⟨hform, h⟩

/-- Whether a form is allowed does not depend on its children. -/
theorem forbids_withChildren (shape : Shape) (form : Form Expr) (new : List Expr) :
    shape.forbids (form.withChildren new) = shape.forbids form := by
  cases shape <;> cases form <;> rfl

end Expr

/-- The check succeeds for exactly the trees that fit their declared shape. -/
theorem Tree.checkShape_eq_ok_iff {t : Tree} : t.checkShape = .ok () ↔ t.root.Fits t.shape := by
  have hfits : t.root.Fits t.shape ↔ (t.root.search fun _ e => t.shape.forbids e.form) = none :=
    Expr.search_eq_none_iff.symm
  rw [hfits, Tree.checkShape]
  cases t.root.search fun _ e => t.shape.forbids e.form with
  | none => simp
  | some e => simp

/-! ## The object that is reported -/

namespace Tree

/-- An expression is misplaced in a tree if it is an object of the kind that trees of the declared
shape do not hold. -/
def Misplaced (t : Tree) (a : Expr) : Prop :=
  (t.shape = .raw ∧ ∃ o, a.form = .loweredObject o) ∨ (t.shape = .lowered ∧ ∃ o, a.form = .object o)

/-- Misplaced is what is forbidden. -/
theorem misplaced_iff {t : Tree} {a : Expr} : t.Misplaced a ↔ t.shape.forbids a.form = true := by
  unfold Misplaced
  cases t.shape <;> cases a.form <;> simp [Shape.forbids]

/-- The check reports what the search finds. -/
theorem checkShape_eq_error_iff {t : Tree} {mismatch : ShapeMismatch} :
    t.checkShape = .error mismatch ↔
      ∃ a, (t.root.search fun _ e => t.shape.forbids e.form) = some a ∧
        mismatch = ⟨t.shape, a.form.name, a.location⟩ := by
  rw [checkShape]
  cases t.root.search fun _ e => t.shape.forbids e.form with
  | none => simp
  | some a => simp [eq_comm]

/-- The check of the shape fails if and only if a misplaced object can be reached. It reports the
declared shape, and the form and the location of the misplaced object that comes first, where
parents come before children and children from the last to the first. -/
theorem checkShape_first_misplaced (t : Tree) :
    ((∃ mismatch, t.checkShape = .error mismatch) ↔ ∃ a, t.root.Reaches a ∧ t.Misplaced a) ∧
      ∀ mismatch, t.checkShape = .error mismatch ↔
        ∃ path a, t.root.at? path = some a ∧ t.Misplaced a ∧
          (∀ path' a', t.root.at? path' = some a' → t.Misplaced a' →
            path' = path ∨ BackBefore path path') ∧
          mismatch = ⟨t.shape, a.form.name, a.location⟩ := by
  constructor
  · have hok : t.checkShape = .ok () ↔ ¬ ∃ a, t.root.Reaches a ∧ t.Misplaced a := by
      simp only [checkShape_eq_ok_iff, Expr.Fits, misplaced_iff, not_exists, not_and,
        Bool.not_eq_true]
    rw [← not_iff_not, ← hok]
    cases t.checkShape with
    | ok u => simp
    | error mismatch => simp
  · intro mismatch
    simp only [checkShape_eq_error_iff, Expr.search_eq_some_iff, misplaced_iff]
    constructor
    · rintro ⟨a, ⟨path, ha, hforbids, hfirst⟩, heq⟩
      exact ⟨path, a, ha, hforbids, hfirst, heq⟩
    · rintro ⟨path, a, ha, hforbids, hfirst, heq⟩
      exact ⟨a, ⟨path, ha, hforbids, hfirst⟩, heq⟩

/-- Of two lowered objects in a raw tree the one in the last element is reported, though it is
further down. -/
example :
    let object (line : UInt32) : Expr :=
      { Build.loweredObject [] [] [] with location := ⟨"a", ⟨line, 1⟩, ⟨line, 3⟩⟩ }
    (Tree.mk .raw (Build.array [object 1, Build.parens (object 2)]) []).checkShape =
      .error ⟨.raw, "DesugaredObject", ⟨"a", ⟨2, 1⟩, ⟨2, 3⟩⟩⟩ := rfl

end Tree

/-! ## Lowering -/

namespace Member

variable {m : Member Expr}

/-- A part that is needed and taken is there. -/
theorem eq_some_of_need {α : Type} {part : Option α} {name : String} {a : α}
    (h : m.need part name = .ok a) : part = some a := by
  cases part with
  | none => cases h
  | some b => exact congrArg some (Except.ok.inj h)

/-- The lowered value of a member is its value, or a function with that body. -/
theorem loweredValue_eq_ok {value : Expr} (h : m.loweredValue = .ok value) :
    ∃ body, m.expr2 = some body ∧
      (m.method = none ∧ value = body ∨
        ∃ params, m.method = some params ∧
          value = { Expr.ofForm (.function params body) with location := m.location }) := by
  obtain ⟨body, hbody, h⟩ := Outcome.bind_eq_ok h
  refine ⟨body, eq_some_of_need hbody, ?_⟩
  cases hmethod : m.method with
  | none =>
    rw [hmethod] at h
    exact .inl ⟨rfl, (Except.ok.inj h).symm⟩
  | some params =>
    rw [hmethod] at h
    exact .inr ⟨params, rfl, (Except.ok.inj h).symm⟩

/-- The lowered name of a field is a string, or its own name without the fodder. -/
theorem loweredName_eq_ok {name : Expr} (h : m.loweredName = .ok name) :
    (∃ id, m.kind = .fieldId ∧ m.id = some id ∧ name = Build.string id) ∨
      ∃ e, m.kind ≠ .fieldId ∧ m.expr1 = some e ∧ name = { e with fodder := [] } := by
  unfold loweredName at h
  split at h
  next hkind =>
    obtain ⟨id, hid, h⟩ := Outcome.bind_eq_ok h
    exact .inl ⟨id, hkind, eq_some_of_need hid, (Except.ok.inj h).symm⟩
  next hkind =>
    obtain ⟨e, he, h⟩ := Outcome.bind_eq_ok h
    exact .inr ⟨e, hkind, eq_some_of_need he, (Except.ok.inj h).symm⟩

/-- What lowering makes of a member: a local binding, an assertion or a field, each from the parts
that it needs. -/
theorem lower_eq_ok_iff {owner : Location} {o : LoweredObject Expr} :
    m.lower owner = .ok o ↔
      (m.kind = .localBind ∧ ∃ name body, m.id = some name ∧ m.loweredValue = .ok body ∧
        o = { LoweredObject.empty with
          locals := [⟨m.fodder2, name, m.opFodder, body, none, [], m.location⟩] }) ∨
      (m.kind = .assert ∧ ∃ condition, m.expr2 = some condition ∧
        o = { LoweredObject.empty with
          asserts := [{ Build.conditional condition (Build.boolean true)
            (some (Build.error (m.expr3.getD (Build.string defaultAssertMessage)))) with
              location := m.location.orOwner owner }] }) ∨
      ((m.kind = .fieldId ∨ m.hasNameExpr = true) ∧ ∃ name body, m.loweredName = .ok name ∧
        m.loweredValue = .ok body ∧
        o = { LoweredObject.empty with
          fields := [⟨m.hide, name, body, m.superSugar, m.location⟩] }) := by
  constructor
  · intro h
    have hfield (h : (do
          let name ← m.loweredName
          let body ← m.loweredValue
          return { LoweredObject.empty with
            fields := [⟨m.hide, name, body, m.superSugar, m.location⟩] } : Except LowerError _) =
          .ok o) :
        ∃ name body, m.loweredName = .ok name ∧ m.loweredValue = .ok body ∧
          o = { LoweredObject.empty with
            fields := [⟨m.hide, name, body, m.superSugar, m.location⟩] } := by
      obtain ⟨name, hname, h⟩ := Outcome.bind_eq_ok h
      obtain ⟨body, hbody, h⟩ := Outcome.bind_eq_ok h
      exact ⟨name, body, hname, hbody, (Except.ok.inj h).symm⟩
    unfold lower at h
    split at h
    next hkind =>
      obtain ⟨name, hname, h⟩ := Outcome.bind_eq_ok h
      obtain ⟨body, hbody, h⟩ := Outcome.bind_eq_ok h
      exact .inl ⟨hkind, name, body, eq_some_of_need hname, hbody, (Except.ok.inj h).symm⟩
    next hkind =>
      obtain ⟨condition, hcondition, h⟩ := Outcome.bind_eq_ok h
      exact .inr (.inl ⟨hkind, condition, eq_some_of_need hcondition, (Except.ok.inj h).symm⟩)
    next hkind => exact .inr (.inr ⟨.inl hkind, hfield h⟩)
    next hkind => exact .inr (.inr ⟨.inr (by simp [hasNameExpr, hkind]), hfield h⟩)
    next hkind => exact .inr (.inr ⟨.inr (by simp [hasNameExpr, hkind]), hfield h⟩)
  · rintro (⟨hkind, name, body, hname, hbody, rfl⟩ | ⟨hkind, condition, hcondition, rfl⟩ |
      ⟨hkind, name, body, hname, hbody, rfl⟩)
    · simp only [lower, hkind, hname, hbody]
      rfl
    · simp only [lower, hkind, hcondition]
      rfl
    · have hkind : m.kind = .fieldId ∨ m.kind = .fieldStr ∨ m.kind = .fieldExpr := by
        simpa [hasNameExpr] using hkind
      rcases hkind with hkind | hkind | hkind <;>
        simp only [lower, hkind, hname, hbody] <;> rfl

/-- An expression that a member needs for its value or its name takes part in its meaning. -/
theorem mem_exprs_of_eq_some {e : Expr}
    (h : m.expr2 = some e ∨ m.expr3 = some e ∨ m.hasNameExpr = true ∧ m.expr1 = some e) :
    e ∈ m.exprs := by
  rcases h with h | h | ⟨hkind, h⟩
  · simp [exprs, h]
  · simp [exprs, h]
  · simp [exprs, hkind, h]

/-- The default values of the parameters of a method take part in its meaning. -/
theorem mem_exprs_of_mem_fallbacks {params : Parameters Expr} {e : Expr}
    (h : m.method = some params) (he : e ∈ params.fallbacks) : e ∈ m.exprs := by
  simp [exprs, h, Parameters.fallbacks?, he]

end Member

/-- Strings fit every shape. -/
theorem Build.fits_string (shape : Shape) (value : String) : (Build.string value).Fits shape :=
  Expr.fits_ofForm (by cases shape <;> rfl) nofun

/-- All children of a lowered object fit. -/
def LoweredObject.Fits (shape : Shape) (o : LoweredObject Expr) : Prop :=
  ∀ c ∈ (Form.loweredObject o).children, c.Fits shape

namespace LoweredObject

variable {shape : Shape} {a b o : LoweredObject Expr} {c : Expr}

/-- The parts of a lowered object among its children. -/
theorem fits_iff : o.Fits shape ↔
    (∀ d ∈ o.fields, d.name.Fits shape ∧ d.body.Fits shape) ∧
      (∀ d ∈ o.locals, d.body.Fits shape) ∧ ∀ e ∈ o.asserts, e.Fits shape := by
  simp only [Fits, Form.children, Form.operands, Form.deferred, List.mem_append, List.mem_map,
    or_imp, forall_and, forall_exists_index, and_imp, forall_apply_eq_imp_iff₂, and_assoc]

/-- The children of two lowered objects together are those of both. -/
theorem mem_children_append :
    c ∈ (Form.loweredObject (a.append b)).children ↔
      c ∈ (Form.loweredObject a).children ∨ c ∈ (Form.loweredObject b).children := by
  simp only [Form.children, Form.operands, Form.deferred, append, List.map_append, List.mem_append]
  grind

/-- What is seen of any number of lowered objects together is seen of one of them, if this holds for
two and nothing is seen of the empty one. -/
theorem exists_mem_of_mem_foldr {γ : Type} {view : LoweredObject Expr → List γ} {x : γ}
    (hempty : view .empty = [])
    (happend : ∀ a b, x ∈ view (a.append b) → x ∈ view a ∨ x ∈ view b)
    {parts : List (LoweredObject Expr)} (hx : x ∈ view (parts.foldr append .empty)) :
    ∃ part ∈ parts, x ∈ view part := by
  induction parts with
  | nil =>
    rw [List.foldr_nil, hempty] at hx
    cases hx
  | cons part parts ih =>
    rcases happend _ _ hx with hx | hx
    · exact ⟨part, List.mem_cons_self, hx⟩
    · obtain ⟨other, hother, hx⟩ := ih hx
      exact ⟨other, List.mem_cons_of_mem _ hother, hx⟩

end LoweredObject

namespace Member

variable {m : Member Expr} {shape : Shape}

/-- The lowered value of a member fits if the expressions of the member do. -/
theorem fits_loweredValue {value : Expr} (h : m.loweredValue = .ok value)
    (hm : ∀ e ∈ m.exprs, e.Fits shape) : value.Fits shape := by
  obtain ⟨body, hbody, ⟨-, rfl⟩ | ⟨params, hmethod, rfl⟩⟩ := loweredValue_eq_ok h
  · exact hm value (mem_exprs_of_eq_some (.inl hbody))
  · refine Expr.fits_iff.mpr ⟨by cases shape <;> rfl, fun c hc => ?_⟩
    have hc : c ∈ params.fallbacks ∨ c = body := by
      simpa [Expr.children, Expr.ofForm, Form.children, Form.operands, Form.deferred] using hc
    rcases hc with hc | rfl
    · exact hm c (mem_exprs_of_mem_fallbacks hmethod hc)
    · exact hm c (mem_exprs_of_eq_some (.inl hbody))

/-- The lowered name of a field fits if the expressions of the member do. -/
theorem fits_loweredName {name : Expr} (h : m.loweredName = .ok name)
    (hkind : m.kind = .fieldId ∨ m.hasNameExpr = true) (hm : ∀ e ∈ m.exprs, e.Fits shape) :
    name.Fits shape := by
  obtain ⟨id, -, -, rfl⟩ | ⟨e, hne, he, rfl⟩ := loweredName_eq_ok h
  · exact Build.fits_string shape id
  · have hname : m.hasNameExpr = true := hkind.resolve_left hne
    exact (hm e (mem_exprs_of_eq_some (.inr (.inr ⟨hname, he⟩)))).of_form_eq rfl

/-- The conditional that is made for an assertion fits if the expressions of the member do. -/
theorem fits_assertion {condition : Expr} (hcondition : m.expr2 = some condition)
    (hm : ∀ e ∈ m.exprs, e.Fits shape) :
    (Build.conditional condition (Build.boolean true)
      (some (Build.error (m.expr3.getD (Build.string defaultAssertMessage))))).Fits shape := by
  have hmessage : (m.expr3.getD (Build.string defaultAssertMessage)).Fits shape := by
    cases h : m.expr3 with
    | none => exact Build.fits_string shape _
    | some e => exact hm e (mem_exprs_of_eq_some (.inr (.inl h)))
  have htrue : (Build.boolean true).Fits shape :=
    Expr.fits_ofForm (by cases shape <;> rfl) nofun
  have herror : (Build.error (m.expr3.getD (Build.string defaultAssertMessage))).Fits shape := by
    refine Expr.fits_ofForm (by cases shape <;> rfl) fun c hc => ?_
    obtain rfl := List.mem_singleton.mp hc
    exact hmessage
  refine Expr.fits_ofForm (by cases shape <;> rfl) fun c hc => ?_
  simp only [Form.children, Form.operands, Form.deferred, List.append_nil, Option.toList_some,
    List.mem_cons, List.not_mem_nil, or_false] at hc
  rcases hc with rfl | rfl | rfl
  · exact hm c (mem_exprs_of_eq_some (.inl hcondition))
  · exact htrue
  · exact herror

/-- What a member is lowered to fits if the expressions of the member do. -/
theorem fits_lower {owner : Location} {o : LoweredObject Expr} (h : m.lower owner = .ok o)
    (hm : ∀ e ∈ m.exprs, e.Fits shape) : o.Fits shape := by
  obtain ⟨-, name, body, -, hbody, rfl⟩ | ⟨-, condition, hcondition, rfl⟩ |
    ⟨hkind, name, body, hname, hbody, rfl⟩ := lower_eq_ok_iff.mp h
  · have hbody := fits_loweredValue hbody hm
    simp [LoweredObject.fits_iff, LoweredObject.empty, hbody]
  · have hassert := fits_assertion hcondition hm
    simp only [LoweredObject.fits_iff, LoweredObject.empty, List.not_mem_nil, false_imp_iff,
      implies_true, true_and, List.mem_singleton, forall_eq]
    exact hassert.of_form_eq rfl
  · have hname := fits_loweredName hname hkind hm
    have hbody := fits_loweredValue hbody hm
    simp [LoweredObject.fits_iff, LoweredObject.empty, hname, hbody]

end Member

/-- An expression of a member is one of the expressions of all members. -/
theorem Member.mem_allExprs {ms : List (Member Expr)} {m : Member Expr} {e : Expr} (hm : m ∈ ms)
    (he : e ∈ m.exprs) : e ∈ Member.allExprs ms := by
  simp only [allExprs, List.mem_append, List.mem_flatMap, List.mem_filter]
  cases hlocal : m.isLocal with
  | true => exact .inl ⟨m, ⟨hm, hlocal⟩, he⟩
  | false => exact .inr ⟨m, ⟨hm, by rw [hlocal]; rfl⟩, he⟩

/-- What is seen of a lowered object is seen of what some member is lowered to. -/
theorem ObjectLiteral.exists_of_mem_view {γ : Type} {view : LoweredObject Expr → List γ} {x : γ}
    (hempty : view .empty = [])
    (happend : ∀ a b, x ∈ view (a.append b) → x ∈ view a ∨ x ∈ view b)
    {literal : ObjectLiteral Expr} {owner : Location} {o : LoweredObject Expr}
    (h : literal.lower owner = .ok o) (hx : x ∈ view o) :
    ∃ m ∈ literal.members, ∃ part, m.lower owner = .ok part ∧ x ∈ view part := by
  obtain ⟨parts, hparts, h⟩ := Outcome.bind_eq_ok h
  obtain rfl := Except.ok.inj h
  obtain ⟨part, hpart, hx⟩ := LoweredObject.exists_mem_of_mem_foldr hempty happend hx
  obtain ⟨m, hm, hlower⟩ := Outcome.exists_of_mem_mapM hparts part hpart
  exact ⟨m, hm, part, hlower, hx⟩

/-- Every child of a lowered object comes from some member. -/
theorem ObjectLiteral.exists_of_mem_children {literal : ObjectLiteral Expr} {owner : Location}
    {o : LoweredObject Expr} {c : Expr} (h : literal.lower owner = .ok o)
    (hc : c ∈ (Form.loweredObject o).children) :
    ∃ m ∈ literal.members, ∃ part, m.lower owner = .ok part ∧
      c ∈ (Form.loweredObject part).children :=
  exists_of_mem_view rfl (fun _ _ => LoweredObject.mem_children_append.mp) h hc

/-- A lowered object fits if all expressions of the members did. -/
theorem ObjectLiteral.fits_lower {shape : Shape} {literal : ObjectLiteral Expr} {owner : Location}
    {o : LoweredObject Expr} (h : literal.lower owner = .ok o)
    (hmembers : ∀ e ∈ Member.allExprs literal.members, e.Fits shape) : o.Fits shape := by
  intro c hc
  obtain ⟨m, hm, part, hpart, hc⟩ := exists_of_mem_children h hc
  exact Member.fits_lower hpart (fun e he => hmembers e (Member.mem_allExprs hm he)) c hc

namespace Expr

/-- Where the children are lowered, an object literal is lowered or there is none. -/
theorem lowerHere_eq_ok {e e' : Expr} (h : e.lowerHere = .ok e') :
    (∃ literal o, e.form = .object literal ∧ literal.lower e.location = .ok o ∧
        e' = { e with form := .loweredObject o }) ∨
      (∀ literal, e.form ≠ .object literal) ∧ e' = e := by
  unfold lowerHere at h
  split at h
  next literal hform =>
    obtain ⟨o, ho, h⟩ := Outcome.bind_eq_ok h
    exact .inl ⟨literal, o, hform, ho, (Except.ok.inj h).symm⟩
  next hform => exact .inr ⟨hform, (Except.ok.inj h).symm⟩

/-- Lowering goes to the children first. -/
theorem lower_eq (e : Expr) :
    e.lower = (do
      let children ← e.children.mapM lower
      (e.withChildren children).lowerHere) := by
  rw [lower, fold_eq, List.mapM_map]
  rfl

/-- No lowered object is allowed in a raw tree, and nothing else is forbidden there. -/
theorem forbids_raw_iff {form : Form Expr} :
    Shape.raw.forbids form = false ↔ ∀ o, form ≠ .loweredObject o := by
  cases form <;> simp [Shape.forbids]

/-- No object literal is allowed in a lowered tree, and nothing else is forbidden there. -/
theorem forbids_lowered_iff {form : Form Expr} :
    Shape.lowered.forbids form = false ↔ ∀ literal, form ≠ .object literal := by
  cases form <;> simp [Shape.forbids]

/-- An expression that is lowered holds no object literal any more. -/
theorem fits_lower {e e' : Expr} (h : e.lower = .ok e') : e'.Fits .lowered := by
  induction e using induct_children generalizing e' with
  | h e ih =>
    rw [lower_eq] at h
    obtain ⟨new, hnew, h⟩ := Outcome.bind_eq_ok h
    have hchildren : (e.withChildren new).children = new :=
      Form.children_withChildren (Outcome.mapM_eq_ok hnew).length_eq.symm
    have hfits : ∀ c ∈ (e.withChildren new).children, c.Fits .lowered := by
      rw [hchildren]
      intro c hc
      obtain ⟨old, hold, hlower⟩ := Outcome.exists_of_mem_mapM hnew c hc
      exact ih old hold hlower
    obtain ⟨literal, o, hform, ho, rfl⟩ | ⟨hform, rfl⟩ := lowerHere_eq_ok h
    · have hmembers : ∀ c ∈ Member.allExprs literal.members, c.Fits .lowered := by
        simpa [children, hform, Form.children, Form.operands, Form.deferred] using hfits
      exact fits_iff.mpr ⟨rfl, ObjectLiteral.fits_lower ho hmembers⟩
    · exact fits_iff.mpr ⟨forbids_lowered_iff.mpr hform, hfits⟩

end Expr

/-! ## Expansion -/

/-- Expansion puts only expressions into the tree that fit. -/
theorem Expr.fits_expanded {shape : Shape} {limit room : Nat} {e e' : Expr} (he : e.Fits shape)
    (h : e.expandWithin e.captured limit room = .ok e') : e'.Fits shape := by
  intro a ha
  obtain ⟨c, new, rfl, -, hc⟩ := exists_source_of_expanded h ha
  refine (forbids_withChildren shape c.form new).trans ?_
  rcases hc with hc | ⟨inner, rfl⟩ | ⟨params, body, rfl⟩
  · exact he c hc
  · cases shape <;> rfl
  · cases shape <;> rfl

/-! ## Runs of passes -/

/-- A pass over a tree that changes it, with the limit on the depth that it is given. -/
inductive Pass where
  | lower (limit : Nat)
  | expand (limit : Nat)

namespace Tree

/-- The tree after a pass. A pass that fails leaves the tree as it was. -/
def pass (t : Tree) : Pass → Tree
  | .lower limit => (t.lower limit).toOption.getD t
  | .expand limit => (t.expand limit).toOption.getD t

/-- The tree after some passes, one after the other. -/
def run (t : Tree) (passes : List Pass) : Tree :=
  passes.foldl pass t

variable {t t' : Tree} {limit : Nat}

/-- What lowering a tree does when it succeeds. -/
theorem lower_eq_ok (h : t.lower limit = .ok t') :
    t.shape = .raw ∧ t.root.checkDepth limit = .ok () ∧
      ∃ root, t.root.lower = .ok root ∧ t' = { t with shape := .lowered, root } := by
  unfold Tree.lower at h
  by_cases hshape : t.shape = .raw
  · rw [if_neg (by simpa using hshape)] at h
    obtain ⟨⟨⟩, hdepth, h⟩ := Outcome.bind_eq_ok h
    obtain ⟨root, hroot, h⟩ := Outcome.bind_eq_ok h
    exact ⟨hshape, Outcome.mapError_eq_ok hdepth, root, hroot, (Except.ok.inj h).symm⟩
  · rw [if_pos hshape] at h
    cases h

/-- A lowered tree fits. -/
theorem fits_lower (h : t.lower limit = .ok t') : t'.shape = .lowered ∧ t'.root.Fits .lowered := by
  obtain ⟨-, -, root, hroot, rfl⟩ := lower_eq_ok h
  exact ⟨rfl, Expr.fits_lower hroot⟩

/-- A tree that fits does so after it is expanded. -/
theorem fits_expand (hfits : t.root.Fits t.shape) (h : t.expand limit = .ok t') :
    t'.root.Fits t'.shape := by
  obtain ⟨root, hroot, rfl⟩ := expand_eq_ok_iff.mp h
  exact Expr.fits_expanded hfits hroot

/-- A tree that fits does so after every pass. -/
theorem fits_pass (hfits : t.root.Fits t.shape) (p : Pass) : (t.pass p).root.Fits (t.pass p).shape := by
  cases p with
  | lower limit =>
    rw [pass]
    cases h : t.lower limit with
    | error e => exact hfits
    | ok t' =>
      obtain ⟨hshape, hroot⟩ := fits_lower h
      change t'.root.Fits t'.shape
      rwa [hshape]
  | expand limit =>
    rw [pass]
    cases h : t.expand limit with
    | error e => exact hfits
    | ok t' => exact fits_expand hfits h

/-- A tree that fits does so after any number of passes. -/
theorem fits_run (hfits : t.root.Fits t.shape) (passes : List Pass) :
    (t.run passes).root.Fits (t.run passes).shape := by
  induction passes generalizing t with
  | nil => exact hfits
  | cons p passes ih => exact ih (fits_pass hfits p)

/-- A tree that is loaded passes the check of its shape. -/
theorem checkShape_of_load {maxDepth : Nat} {file text : String}
    (h : Tree.load maxDepth file text = .ok t) : t.checkShape = .ok () := by
  unfold Tree.load at h
  by_cases hdepth : nestingLimit maxDepth < Json.bracketDepth text.toList
  · rw [if_pos hdepth] at h
    cases h
  · rw [if_neg hdepth] at h
    obtain ⟨tree, -, h⟩ := Outcome.bind_eq_ok h
    obtain ⟨⟨⟩, hshape, h⟩ := Outcome.bind_eq_ok h
    obtain rfl := Except.ok.inj h
    exact Outcome.mapError_eq_ok hshape

/-- A tree that was loaded passes the check of its declared shape after any number of passes, each
of which may have failed. And whatever lowering returns is declared lowered and has no object
literal that can be reached. -/
theorem checkShape_run :
    (∀ (maxDepth : Nat) (file text : String) (t : Tree), Tree.load maxDepth file text = .ok t →
        ∀ passes, (t.run passes).checkShape = .ok ()) ∧
      ∀ (limit : Nat) (t lowered : Tree), t.lower limit = .ok lowered →
        lowered.shape = .lowered ∧
          ∀ e, lowered.root.Reaches e → ∀ literal, e.form ≠ .object literal := by
  constructor
  · intro maxDepth file text t hload passes
    have hfits := checkShape_eq_ok_iff.mp (checkShape_of_load hload)
    exact checkShape_eq_ok_iff.mpr (fits_run hfits passes)
  · intro limit t lowered hlower
    obtain ⟨hshape, hfits⟩ := fits_lower hlower
    exact ⟨hshape, fun e he => Expr.forbids_lowered_iff.mp (hfits e he)⟩

/-- A tree with a local binding of an object is loaded, expanded and lowered, and a second lowering
fails. -/
theorem checkShape_run_locals :
    let t : Tree := ⟨.raw, Build.locals [("x", Build.object [])] (Build.var "x"), []⟩
    let passes : List Pass := [.expand 5, .lower 5, .lower 5, .expand 0]
    Tree.load 5 "a.json" (String.ofList t.compact) = .ok t ∧ (t.run passes).checkShape = .ok () ∧
      ∃ lowered, t.lower 5 = .ok lowered ∧ lowered.shape = .lowered ∧
        ∀ e, lowered.root.Reaches e → ∀ literal, e.form ≠ .object literal := by
  intro t passes
  have hload : Tree.load 5 "a.json" (String.ofList t.compact) = .ok t := by
    rw [load_of_tokens rfl t.tokens_compact, if_pos (by decide)]
  have hlower : t.lower 5 = .ok ⟨.lowered, Build.locals [("x", Build.loweredObject [] [] [])]
      (Build.var "x"), []⟩ := rfl
  exact ⟨hload, checkShape_run.1 5 "a.json" _ t hload passes, _, hlower,
    checkShape_run.2 5 t _ hlower⟩

end Tree

end JsonnetTree
