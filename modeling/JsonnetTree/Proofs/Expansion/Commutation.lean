import JsonnetTree.Proofs.Expansion.LoweredBindings
import JsonnetTree.Proofs.Expansion.Substitution

/-!
# Lowering and expanding commute

It does not matter whether a tree is lowered first and expanded then, or the other way round
(`Tree.lower_expand_comm`). Expansion is a substitution, and lowering the result of a substitution
is substituting lowered expressions (`Expr.lower_substitute`). The definitions of a lowered tree are
those of the tree, lowered, and so are the values that the two substitutions give to a name
(`Expr.Acyclic.lower_value`).
-/

namespace JsonnetTree

/-! ## Lowering after a substitution -/

namespace Expr

variable {s : String → Option Expr}

/-- An expression that is no variable is kept by a substitution, except for its children. -/
theorem substitute_of_ne_var {e : Expr} (h : ∀ x, e.form ≠ .var x) :
    e.substitute s = e.mapChildren (substitute s) :=
  substitute_of_kept fun x hx => absurd hx (h x)

/-- Whether the fodder of an expression is removed before or after a substitution does not matter if
no value of the substitution has fodder. -/
theorem substitute_without_fodder (hs : ∀ x value, s x = some value → value.fodder = []) (e : Expr) :
    ({ e with fodder := [] } : Expr).substitute s = { e.substitute s with fodder := [] } := by
  by_cases hvar : ∃ x, e.form = .var x
  · obtain ⟨x, hx⟩ := hvar
    rw [substitute_of_var hx, substitute_of_var (e := { e with fodder := [] }) hx]
    cases hvalue : s x with
    | none => rfl
    | some value =>
      have hfodder := hs x value hvalue
      cases value
      cases hfodder
      rfl
  · have hother : ∀ x, e.form ≠ .var x := fun x hx => hvar ⟨x, hx⟩
    rw [substitute_of_ne_var hother, substitute_of_ne_var (e := { e with fodder := [] }) hother]
    rfl

/-- A string is kept by every substitution. -/
theorem substitute_string (value : String) :
    (Build.string value).substitute s = Build.string value :=
  substitute_of_ne_var nofun

/-- A substitution in a function goes to the default values of its parameters and to its body. -/
theorem substitute_function (location : Location) (params : Parameters Expr) (body : Expr) :
    ({ ofForm (.function params body) with location } : Expr).substitute s =
      { ofForm (.function (params.map (substitute s)) (body.substitute s)) with location } :=
  substitute_of_ne_var nofun

/-- A substitution in what an assertion is lowered to goes to its condition and its message. -/
theorem substitute_assertion (location : Location) (condition message : Expr) :
    ({ Build.conditional condition (Build.boolean true) (some (Build.error message)) with
        location } : Expr).substitute s =
      { Build.conditional (condition.substitute s) (Build.boolean true)
          (some (Build.error (message.substitute s))) with location } := by
  have htrue : (Build.boolean true).substitute s = Build.boolean true := substitute_of_ne_var nofun
  have herror : (Build.error message).substitute s = Build.error (message.substitute s) :=
    substitute_of_ne_var nofun
  rw [← htrue, ← herror]
  exact substitute_of_ne_var nofun

end Expr

section Substitute

variable {s : String → Option Expr} {m : Member Expr} {owner : Location}

/-- The lowered value of a member after a substitution. -/
theorem loweredValue_substitute {value : Expr} (h : m.loweredValue = .ok value) :
    (m.mapChildren (Expr.substitute s) id).loweredValue = .ok (value.substitute s) := by
  obtain ⟨body, hbody, ⟨hmethod, rfl⟩ | ⟨params, hmethod, rfl⟩⟩ := Member.loweredValue_eq_ok h
  · simp only [Member.loweredValue, Member.mapChildren, hbody, hmethod]
    rfl
  · rw [Expr.substitute_function]
    simp only [Member.loweredValue, Member.mapChildren, hbody, hmethod]
    rfl

/-- The lowered name of a field after a substitution whose values have no fodder. -/
theorem loweredName_substitute (hs : ∀ x value, s x = some value → value.fodder = [])
    {name : Expr} (hkind : m.kind = .fieldId ∨ m.hasNameExpr = true) (h : m.loweredName = .ok name) :
    (m.mapChildren (Expr.substitute s) id).loweredName = .ok (name.substitute s) := by
  obtain ⟨text, hfield, hid, rfl⟩ | ⟨e, hne, he, rfl⟩ := Member.loweredName_eq_ok h
  · rw [Expr.substitute_string]
    simp only [Member.loweredName, Member.mapChildren, hfield, hid]
    rfl
  · have hname : m.kind = .fieldStr ∨ m.kind = .fieldExpr := by
      simpa [Member.hasNameExpr] using hkind.resolve_left hne
    rw [Expr.substitute_without_fodder hs]
    rcases hname with hname | hname
    · simp only [Member.loweredName, Member.mapChildren, Member.hasNameExpr, hname, he]
      rfl
    · simp only [Member.loweredName, Member.mapChildren, Member.hasNameExpr, hname, he]
      rfl

/-- A lowered member after a substitution whose values have no fodder. -/
theorem lower_member_substitute (hs : ∀ x value, s x = some value → value.fodder = [])
    {o : LoweredObject Expr} (h : m.lower owner = .ok o) :
    (m.mapChildren (Expr.substitute s) id).lower owner =
      .ok (o.mapChildren (Expr.substitute s) id) := by
  rw [Member.lower_eq_ok_iff] at h ⊢
  obtain ⟨hkind, name, body, hname, hbody, rfl⟩ | ⟨hkind, condition, hcondition, rfl⟩ |
    ⟨hkind, name, body, hname, hbody, rfl⟩ := h
  · exact .inl ⟨hkind, name, _, hname, loweredValue_substitute hbody, rfl⟩
  · refine .inr (.inl ⟨hkind, condition.substitute s, by simp [Member.mapChildren, hcondition], ?_⟩)
    have hmessage : ((m.mapChildren (Expr.substitute s) id).expr3).getD
        (Build.string defaultAssertMessage) =
        (m.expr3.getD (Build.string defaultAssertMessage)).substitute s := by
      cases hexpr : m.expr3 with
      | none => simp [Member.mapChildren, hexpr, Expr.substitute_string]
      | some message => simp [Member.mapChildren, hexpr]
    rw [hmessage]
    simp only [LoweredObject.mapChildren, LoweredObject.empty, List.map_cons, List.map_nil,
      Expr.substitute_assertion]
    rfl
  · exact .inr (.inr ⟨hkind, _, _, loweredName_substitute hs hkind hname,
      loweredValue_substitute hbody, rfl⟩)

/-- The parts of an object are changed apart. -/
theorem LoweredObject.mapChildren_foldr_append (child other : Expr → Expr)
    (parts : List (LoweredObject Expr)) :
    (parts.foldr LoweredObject.append .empty).mapChildren child other =
      (parts.map (·.mapChildren child other)).foldr LoweredObject.append .empty := by
  induction parts with
  | nil => rfl
  | cons part parts ih =>
    rw [List.map_cons, List.foldr_cons, List.foldr_cons, ← ih]
    simp [LoweredObject.mapChildren, LoweredObject.append]

/-- A lowered object after a substitution whose values have no fodder. -/
theorem lower_object_substitute (hs : ∀ x value, s x = some value → value.fodder = [])
    {literal : ObjectLiteral Expr} {o : LoweredObject Expr} (h : literal.lower owner = .ok o) :
    ObjectLiteral.lower ⟨literal.members.map (·.mapChildren (Expr.substitute s) id),
        literal.trailingComma, literal.closeFodder⟩ owner =
      .ok (o.mapChildren (Expr.substitute s) id) := by
  obtain ⟨parts, hparts, h⟩ := Outcome.bind_eq_ok h
  obtain rfl := Except.ok.inj h
  have hall : (literal.members.map (·.mapChildren (Expr.substitute s) id)).mapM (·.lower owner) =
      .ok (parts.map (·.mapChildren (Expr.substitute s) id)) := by
    refine Outcome.mapM_of_forall₂ ?_
    rw [List.forall₂_map_left_iff, List.forall₂_map_right_iff]
    exact (Outcome.mapM_eq_ok hparts).imp fun m part hm => lower_member_substitute hs hm
  rw [ObjectLiteral.lower, hall, LoweredObject.mapChildren_foldr_append]
  rfl

end Substitute

namespace Expr

variable {s s' : String → Option Expr} {e l : Expr}

/-- A variable is lowered to itself. -/
theorem lower_of_var {x : String} (h : e.form = .var x) : e.lower = .ok e := by
  have hchildren : e.children = [] := by rw [children, h]; rfl
  have hlower := lower_of_other (e := e) (by simp [h]) (by simp [hchildren])
  rwa [← withChildren_map, hchildren, List.map_nil, ← hchildren, withChildren_children] at hlower

/-- Changing children makes no variable. -/
theorem mapChildren_ne_var {f : Expr → Expr} (h : ∀ x, e.form ≠ .var x) :
    ∀ x, (e.mapChildren f).form ≠ .var x := by
  intro x hx
  rw [mapChildren] at hx
  cases hform : e.form with
  | var y => exact h y hform
  | _ =>
    rw [hform] at hx
    cases hx

/-- An expression with lowered children is lowered after a substitution in its children, if the
values of the substitution have no fodder. -/
theorem lowerHere_mapChildren (hfodder : ∀ x value, s x = some value → value.fodder = [])
    (hother : ∀ x, e.form ≠ .var x) (h : e.lowerHere = .ok l) :
    (e.mapChildren (substitute s)).lowerHere = .ok (l.substitute s) := by
  obtain ⟨literal, o, hform, ho, rfl⟩ | ⟨hform, rfl⟩ := lowerHere_eq_ok h
  · have hmap : (e.mapChildren (substitute s)).form =
        .object ⟨literal.members.map (·.mapChildren (substitute s) id), literal.trailingComma,
          literal.closeFodder⟩ := by
      rw [mapChildren, hform, Form.mapChildren]
    have hlower := lower_object_substitute hfodder ho
    have hsubstitute : ({ e with form := .loweredObject o } : Expr).substitute s =
        { e with form := .loweredObject (o.mapChildren (substitute s) id) } :=
      substitute_of_ne_var (by simp)
    rw [lowerHere, hmap, hsubstitute]
    simp only [mapChildren, hlower]
    rfl
  · rw [lowerHere_of_other (mapChildren_ne_object hform), substitute_of_ne_var hother]

/-- Lowering after a substitution is the substitution of lowered values after lowering. -/
theorem lower_substitute (hfodder : ∀ x value, s' x = some value → value.fodder = [])
    (hnone : ∀ x, s x = none → s' x = none)
    (hsome : ∀ x value, e.Mentions x → s x = some value →
      ∃ value', s' x = some value' ∧ value.lower = .ok value')
    (h : e.lower = .ok l) : (e.substitute s).lower = .ok (l.substitute s') := by
  induction e using induct_children generalizing l with
  | h e ih =>
    by_cases hvar : ∃ x, e.form = .var x
    · obtain ⟨x, hx⟩ := hvar
      obtain rfl : e = l := Except.ok.inj ((lower_of_var hx).symm.trans h)
      rw [substitute_of_var hx, substitute_of_var hx]
      cases hvalue : s x with
      | none => rw [hnone x hvalue, Option.getD_none, lower_of_var hx]
      | some value =>
        obtain ⟨value', hvalue', hlower⟩ := hsome x value ⟨e, .refl e, hx⟩ hvalue
        rw [hvalue', Option.getD_some, Option.getD_some, hlower]
    · have hother : ∀ x, e.form ≠ .var x := fun x hx => hvar ⟨x, hx⟩
      obtain ⟨hchildren, hhere⟩ := lower_eq_ok_iff.mp h
      have hchild : ∀ c ∈ e.children, (c.substitute s).lower = .ok (c.lowered.substitute s') := by
        intro c hc
        obtain ⟨c', hc'⟩ := hchildren c hc
        rw [lowered_of_lower hc']
        refine ih c hc (fun x value hx => hsome x value ?_) hc'
        obtain ⟨v, hv, hform⟩ := hx
        exact ⟨v, .child hc hv, hform⟩
      rw [substitute_of_ne_var hother]
      have hswap : (e.mapChildren (substitute s)).mapChildren lowered =
          (e.mapChildren lowered).mapChildren (substitute s') := by
        rw [mapChildren_mapChildren, mapChildren_mapChildren]
        exact mapChildren_congr fun c hc => lowered_of_lower (hchild c hc)
      refine lower_eq_ok_iff.mpr ⟨?_, ?_⟩
      · rw [children_mapChildren, List.forall_mem_map]
        exact fun c hc => ⟨_, hchild c hc⟩
      · rw [hswap]
        exact lowerHere_mapChildren hfodder (mapChildren_ne_var hother) hhere

end Expr

/-! ## Values of the two substitutions -/

namespace Expr

variable {e l : Expr} {x : String} {s s' : String → Option Expr}

/-- A name that has a value has a definition, from which the value comes. -/
theorem Resolves.exists_definition (hs : e.Resolves s) {value : Expr} (h : s x = some value) :
    ∃ body, e.definition? x = some body ∧ body.substitute s = value := by
  rw [hs x] at h
  exact Option.map_eq_some_iff.mp h

/-- A name without a value has none after lowering. -/
theorem Resolves.eq_none_of_lower (hs : e.Resolves s) (hs' : l.Resolves s')
    (hdefinition : ∀ x, l.definition? x = (e.definition? x).map lowered) (h : s x = none) :
    s' x = none := by
  rw [hs x, Option.map_eq_none_iff] at h
  rw [hs' x, hdefinition, h, Option.map_none, Option.map_none]

/-- The values of a substitution have no fodder if the definitions have none. -/
theorem Acyclic.fodder_value (hacyclic : e.Acyclic) (hs : e.Resolves s)
    (hdefinition : ∀ x body, e.definition? x = some body → body.fodder = []) {value : Expr}
    (h : s x = some value) : value.fodder = [] := by
  induction x using hacyclic.wellFounded.induction generalizing value with
  | h x ih =>
    obtain ⟨body, hbody, rfl⟩ := hs.exists_definition h
    by_cases hvar : ∃ y, body.form = .var y
    · obtain ⟨y, hy⟩ := hvar
      rw [substitute_of_var hy]
      cases hvalue : s y with
      | none => exact hdefinition x body hbody
      | some value =>
        obtain ⟨other, hother, -⟩ := hs.exists_definition hvalue
        have hrefers : e.Refers x y :=
          ⟨body, hbody, ⟨body, .refl body, hy⟩, Option.isSome_of_mem hother⟩
        exact ih y hrefers hvalue
    · rw [substitute_of_ne_var fun y hy => hvar ⟨y, hy⟩]
      exact hdefinition x body hbody

/-- The values of the substitution for an expression are lowered to those of the substitution for
the lowered expression. -/
theorem Acyclic.lower_value (hacyclic : e.Acyclic) (hs : e.Resolves s) (hs' : l.Resolves s')
    (hdefinition : ∀ x, l.definition? x = (e.definition? x).map lowered)
    (hfodder : ∀ x value, s' x = some value → value.fodder = []) (h : e.lower = .ok l)
    {value : Expr} (hvalue : s x = some value) :
    ∃ value', s' x = some value' ∧ value.lower = .ok value' := by
  induction x using hacyclic.wellFounded.induction generalizing value with
  | h x ih =>
    obtain ⟨body, hbody, rfl⟩ := hs.exists_definition hvalue
    obtain ⟨body', hbody'⟩ := exists_lower_definition h hbody
    refine ⟨body'.substitute s', ?_, ?_⟩
    · rw [hs' x, hdefinition, hbody, Option.map_some, Option.map_some, lowered_of_lower hbody']
    · refine lower_substitute hfodder (fun y => hs.eq_none_of_lower hs' hdefinition)
        (fun y value hmentions hy => ?_) hbody'
      obtain ⟨other, hother, -⟩ := hs.exists_definition hy
      exact ih y ⟨body, hbody, hmentions, Option.isSome_of_mem hother⟩ hy

/-- If an expression is expanded, and so is the lowered one, then the expanded expression is lowered
to the expanded lowered one. -/
theorem lower_expanded {expanded expanded' : Expr} {limit limit' room room' : Nat}
    (hfodder : ∀ a, e.Reaches a → a.fodder = []) (hregular : e.IsRegular)
    (hnames : (e.bindings.map (·.name)).Nodup) (h : e.lower = .ok l)
    (hexpand : e.expandWithin e.captured limit room = .ok expanded)
    (hexpand' : l.expandWithin l.captured limit' room' = .ok expanded') :
    expanded.lower = .ok expanded' := by
  obtain ⟨s, hs, rfl⟩ := exists_resolves hexpand
  obtain ⟨s', hs', rfl⟩ := exists_resolves hexpand'
  have hdefinition := definition?_of_lower hregular hnames h
  have hfodder' : ∀ x body, l.definition? x = some body → body.fodder = [] := by
    intro x body' hbody'
    rw [hdefinition] at hbody'
    obtain ⟨body, hbody, rfl⟩ := Option.map_eq_some_iff.mp hbody'
    obtain ⟨body', hlower⟩ := exists_lower_definition h hbody
    rw [lowered_of_lower hlower, fodder_of_lower hlower]
    exact fodder_definition hfodder hbody
  have hvalue : ∀ x value, s' x = some value → value.fodder = [] := fun x value hx =>
    (acyclic_of_expandWithin hexpand').fodder_value hs' hfodder' hx
  refine lower_substitute hvalue (fun x => hs.eq_none_of_lower hs' hdefinition)
    (fun x value _ hx => ?_) h
  exact (acyclic_of_expandWithin hexpand).lower_value hs hs' hdefinition hvalue h hx

end Expr

namespace Tree

/-- Take a raw tree without fodder in which no name is bound twice by local expressions, and whose
members have a message only on assertions and parameters only elsewhere. If it can be lowered and
then expanded, and expanded and then lowered, with any limits, then the result is the same. -/
theorem lower_expand_comm {t lowered expanded t₁ t₂ : Tree} {limit₁ limit₂ limit₃ limit₄ : Nat}
    (hfodder : ∀ e, t.root.Reaches e → e.fodder = [])
    (hmembers : ∀ e o, t.root.Reaches e → e.form = .object o → ∀ m ∈ o.members,
      (m.kind ≠ .assert → m.expr3 = none) ∧ (m.kind = .assert → m.method = none))
    (hnames : (t.root.bindings.map (·.name)).Nodup)
    (hlower : t.lower limit₁ = .ok lowered) (hlowerExpand : lowered.expand limit₂ = .ok t₁)
    (hexpand : t.expand limit₃ = .ok expanded) (hexpandLower : expanded.lower limit₄ = .ok t₂) :
    t₁ = t₂ := by
  obtain ⟨-, -, l, hl, rfl⟩ := lower_eq_ok hlower
  obtain ⟨root₁, hroot₁, rfl⟩ := expand_eq_ok_iff.mp hlowerExpand
  obtain ⟨e, he, rfl⟩ := expand_eq_ok_iff.mp hexpand
  obtain ⟨-, -, root₂, hroot₂, rfl⟩ := lower_eq_ok hexpandLower
  have hsame : e.lower = .ok root₁ := Expr.lower_expanded hfodder hmembers hnames hl he hroot₁
  obtain rfl : root₁ = root₂ := Except.ok.inj (hsame.symm.trans hroot₂)
  rfl

/-- An object with a computed name, a method, a local binding and an assertion, each of which uses a
definition. -/
theorem lower_expand_comm_members :
    let literal (k : Expr) : Expr := Build.object [
      Build.fieldExpr k .inherit Build.null, Build.objectAssert k none,
      { Build.fieldId "f" .inherit k with method := some (Build.parameters ["y"]) },
      Build.objectLocal "z" k]
    let tree (shape : Shape) (object use : Expr) : Tree :=
      ⟨shape, Build.locals [("k", Build.string "a"), ("o", object)] use, []⟩
    let t := tree .raw (literal (Build.var "k")) (Build.var "o")
    (∀ e, t.root.Reaches e → e.fodder = []) ∧
      (∀ e o, t.root.Reaches e → e.form = .object o → ∀ m ∈ o.members,
        (m.kind ≠ .assert → m.expr3 = none) ∧ (m.kind = .assert → m.method = none)) ∧
      (t.root.bindings.map (·.name)).Nodup ∧
      ∃ lowered expanded t₁ t₂, t.lower 3 = .ok lowered ∧ lowered.expand 7 = .ok t₁ ∧
        t.expand 4 = .ok expanded ∧ expanded.lower 5 = .ok t₂ ∧ t₁ = t₂ := by
  intro literal tree t
  have hfodder : ∀ e, t.root.Reaches e → e.fodder = [] := by
    have hall : (t.root.preorder.all fun e => e.fodder.isEmpty) = true := rfl
    intro e he
    simpa using List.all_eq_true.mp hall e (Expr.mem_preorder_iff.mpr he)
  have hmembers : ∀ e o, t.root.Reaches e → e.form = .object o → ∀ m ∈ o.members,
      (m.kind ≠ .assert → m.expr3 = none) ∧ (m.kind = .assert → m.method = none) := by
    have hall : t.root.preorder.flatMap Expr.membersHere =
        (literal (Build.var "k")).membersHere := rfl
    have hregular : ∀ m ∈ (literal (Build.var "k")).membersHere, m.IsRegular := by decide
    rw [← hall] at hregular
    exact Expr.isRegular_iff.mpr hregular
  have hnames : (t.root.bindings.map (·.name)).Nodup := by
    have hbound : t.root.bindings.map (·.name) = ["k", "o"] := rfl
    rw [hbound]
    decide
  let flat (k : Expr) : Expr := Build.loweredObject
    [Build.conditional k (Build.boolean true)
      (some (Build.error (Build.string "Object assertion failed.")))]
    [Build.loweredField k Build.null,
      Build.loweredField (Build.string "f") (Build.function ["y"] k)]
    [Build.binding "z" k]
  let lowered := tree .lowered (flat (Build.var "k")) (Build.var "o")
  let expanded := tree .raw (literal (Build.string "a")) (literal (Build.string "a"))
  let result := tree .lowered (flat (Build.string "a")) (flat (Build.string "a"))
  have hlower : t.lower 3 = .ok lowered := by
    unfold t lowered flat tree literal
    rfl
  have hlowerExpand : lowered.expand 7 = .ok result := by
    unfold lowered result flat tree
    rfl
  have hexpand : t.expand 4 = .ok expanded := by
    unfold t expanded tree literal
    rfl
  have hexpandLower : expanded.lower 5 = .ok result := by
    unfold expanded result flat tree literal
    rfl
  exact ⟨hfodder, hmembers, hnames, lowered, expanded, result, result, hlower, hlowerExpand, hexpand,
    hexpandLower, lower_expand_comm hfodder hmembers hnames hlower hlowerExpand hexpand hexpandLower⟩

end Tree

end JsonnetTree
