import JsonnetTree.Proofs.Expansion.LoweredBindings
import JsonnetTree.Proofs.Symbol.Context

/-!
# Symbols of a tree as it is written

The symbols of a tree are found in its lowered form. Here they are read off the tree as it is
written: what is declared at a place (`Expr.declared`) and the names of the fields around it
(`Naming.fields`). Both ways lead to the same symbols, in another order.
-/

namespace JsonnetTree

/-! ## What is declared -/

namespace Member

variable (m : Member Expr)

/-- The name of a field whose name is an identifier or a string. -/
def label? : Option String :=
  match m.kind with
  | .fieldId => m.id
  | .fieldStr | .fieldExpr => m.expr1.bind (·.literal?)
  | .localBind | .assert => none

/-- What a member declares: a local binding or a field with a label. A member without a location
takes that of its owner. -/
def declared? (owner : Location) (context : List String) : Option Symbol :=
  let location := if m.location.isSet then m.location else owner
  match m.kind with
  | .localBind => m.id.map fun name => ⟨name, .objectLocal, context, location⟩
  | .fieldId | .fieldStr | .fieldExpr => m.label?.map fun name => ⟨name, .field, context, location⟩
  | .assert => none

/-- The expressions of a member with the names that they stand under: the parameters and the value
of a field stand under its label, and its name does not. -/
def labelled : List (Option String × Expr) :=
  (if m.hasNameExpr then m.expr1.toList else []).map (none, ·) ++
    (Parameters.fallbacks? m.method ++ m.expr2.toList).map (m.label?, ·) ++
    m.expr3.toList.map (none, ·)

end Member

/-- What is declared at an expression itself: the bindings of a local expression and the members of
an object literal. -/
def Expr.declared (e : Expr) (context : List String) : List Symbol :=
  match e.form with
  | .locals binds _ => binds.map fun b =>
      ⟨b.name, .localBind, context, if b.location.isSet then b.location else e.location⟩
  | .object o => o.members.filterMap (·.declared? e.location context)
  | _ => []

/-- The children of an expression with the names that they stand under, which only those of object
literals do. -/
def Expr.labelledChildren (e : Expr) : List (Option String × Expr) :=
  match e.form with
  | .object o =>
    (o.members.filter (·.isLocal)).flatMap (·.labelled) ++
      (o.members.filter (!·.isLocal)).flatMap (·.labelled)
  | _ => e.children.map (none, ·)

/-- Parameters and values of the fields of object literals stand under the labels of the fields. -/
def Naming.fields : Naming where
  children := Expr.labelledChildren
  map_snd e := by
    have hmember (m : Member Expr) : m.labelled.map (·.2) = m.exprs := by
      simp [Member.labelled, Member.exprs, Function.comp_def]
    unfold Expr.labelledChildren
    split
    next o hform =>
      simp [hform, List.map_flatMap, hmember, Expr.children, Form.children, Form.operands,
        Form.deferred, Member.allExprs]
    next => simp [Function.comp_def]

/-! ## Symbols of a lowered member -/

namespace Expr

/-- The symbols of what an assertion is lowered to. -/
theorem symbolsIn_assertion (location : Location) (condition message : Expr)
    (context : List String) :
    ({ Build.conditional condition (Build.boolean true) (some (Build.error message)) with
        location } : Expr).symbolsIn context =
      condition.symbolsIn context ++ message.symbolsIn context := by
  have htrue : (Build.boolean true).symbolsIn context = [] := by
    rw [symbolsIn_eq]
    rfl
  have herror : (Build.error message).symbolsIn context = message.symbolsIn context := by
    rw [symbolsIn_eq]
    exact List.append_nil _
  rw [symbolsIn_of_other (by simp [Build.conditional, ofForm])]
  simp [bindingsHere, children, Build.conditional, ofForm, Form.children, Form.operands,
    Form.deferred, htrue, herror]

/-- Lowering keeps strings and makes none. -/
theorem literal?_lowered (e : Expr) : e.lowered.literal? = e.literal? := by
  cases h : e.lower with
  | error => rw [lowered, h]; rfl
  | ok l =>
    rw [lowered_of_lower h]
    obtain ⟨o, lo, hform, -, rfl⟩ | ⟨-, rfl⟩ := lower_cases h
    · simp [literal?, hform]
    · unfold literal? mapChildren
      cases e.form <;> rfl

end Expr

namespace Member

variable {m : Member Expr} {owner : Location}

/-- The symbols of the lowered value of a member. -/
theorem symbolsIn_loweredValue {value : Expr} (h : m.loweredValue = .ok value)
    (context : List String) :
    value.symbolsIn context =
      (Parameters.fallbacks? m.method ++ m.expr2.toList).flatMap (·.symbolsIn context) := by
  obtain ⟨body, hbody, ⟨hmethod, rfl⟩ | ⟨params, hmethod, rfl⟩⟩ := loweredValue_eq_ok h
  · simp [hbody, hmethod, Parameters.fallbacks?]
  · rw [Expr.symbolsIn_of_other (by simp [Expr.ofForm])]
    simp [hbody, hmethod, Parameters.fallbacks?, Expr.bindingsHere, Expr.children, Expr.ofForm,
      Form.children, Form.operands, Form.deferred]

/-- The lowered name of a field is a string if and only if the field has a label. -/
theorem literal?_loweredName {name : Expr} (hkind : m.kind = .fieldId ∨ m.hasNameExpr = true)
    (h : m.loweredName = .ok name) : name.literal? = m.label? := by
  obtain ⟨text, hfield, hid, rfl⟩ | ⟨e, hne, he, rfl⟩ := loweredName_eq_ok h
  · simp [label?, hfield, hid, Build.string, Expr.ofForm, Expr.literal?]
  · have hname := hkind.resolve_left hne
    cases hkind' : m.kind <;> simp_all [label?, hasNameExpr, Expr.literal?]

/-- The symbols of the lowered name of a field. -/
theorem symbolsIn_loweredName {name : Expr} (hkind : m.kind = .fieldId ∨ m.hasNameExpr = true)
    (h : m.loweredName = .ok name) (context : List String) :
    name.symbolsIn context =
      (if m.hasNameExpr then m.expr1.toList else []).flatMap (·.symbolsIn context) := by
  obtain ⟨text, hfield, -, rfl⟩ | ⟨e, hne, he, rfl⟩ := loweredName_eq_ok h
  · rw [Expr.symbolsIn_of_literal (by rfl)]
    simp [hasNameExpr, hfield]
  · have hsame : ({ e with fodder := [] } : Expr).symbolsIn context = e.symbolsIn context :=
      Expr.symbolsIn_congr rfl rfl
    simp [hkind.resolve_left hne, he, hsame]

/-- A field declares its label. -/
theorem declared?_of_field (hkind : m.kind = .fieldId ∨ m.hasNameExpr = true) (owner : Location)
    (context : List String) :
    m.declared? owner context =
      m.label?.map fun name => ⟨name, .field, context, m.location.orOwner owner⟩ := by
  cases hm : m.kind with
  | fieldId | fieldStr | fieldExpr => simp [declared?, hm, Location.orOwner]
  | localBind | assert => simp [hm, hasNameExpr] at hkind

/-- The symbols of a lowered member are what it declares and the symbols of its expressions, each in
the context of its label. -/
theorem symbolsIn_lower (hm : m.IsRegular) {o : LoweredObject Expr} (h : m.lower owner = .ok o)
    (context : List String) :
    o.symbolsIn owner context = (m.declared? owner context).toList ++
      m.labelled.flatMap fun c => c.2.symbolsIn (context ++ c.1.toList) := by
  obtain ⟨hkind, name, body, hname, hbody, rfl⟩ | ⟨hkind, condition, hcondition, rfl⟩ |
    ⟨hkind, name, body, hname, hbody, rfl⟩ := lower_eq_ok_iff.mp h
  · have hmessage : m.expr3 = none := hm.1 (by simp [hkind])
    simp [LoweredObject.symbolsIn, LoweredObject.empty, declared?, labelled, label?, hasNameExpr,
      hkind, hname, hmessage, symbolsIn_loweredValue hbody, Binding.symbol, Location.orOwner,
      List.flatMap_map]
  · have hmethod : m.method = none := hm.2 hkind
    have hmessage : (m.expr3.getD (Build.string defaultAssertMessage)).symbolsIn context =
        m.expr3.toList.flatMap (·.symbolsIn context) := by
      cases m.expr3 with
      | none => exact Expr.symbolsIn_of_literal (by rfl) context
      | some message => simp
    simp [LoweredObject.symbolsIn, LoweredObject.empty, declared?, labelled, label?, hasNameExpr,
      hkind, hcondition, hmethod, Parameters.fallbacks?, Expr.symbolsIn_assertion, hmessage,
      List.flatMap_map]
  · have hmessage : m.expr3 = none := hm.1 (by rintro h; simp [h, hasNameExpr] at hkind)
    rw [declared?_of_field hkind]
    simp [LoweredObject.symbolsIn, LoweredObject.empty, labelled, hmessage,
      literal?_loweredName hkind hname, symbolsIn_loweredName hkind hname,
      symbolsIn_loweredValue hbody, List.flatMap_map, List.filterMap_eq_flatMap_toList]

section Children

variable (m : Member Expr) (other : Expr → Expr)

/-- Lowering the children of a member keeps its label. -/
theorem label?_mapChildren : (m.mapChildren Expr.lowered other).label? = m.label? := by
  cases hkind : m.kind <;>
    simp [label?, mapChildren, hasNameExpr, hkind, Option.bind_map, Expr.literal?_lowered]

/-- Lowering the children of a member keeps what it declares. -/
theorem declared?_mapChildren (owner : Location) (context : List String) :
    (m.mapChildren Expr.lowered other).declared? owner context = m.declared? owner context := by
  simp only [declared?, label?_mapChildren]
  rfl

/-- Lowering the children of a member keeps the names that they stand under. -/
theorem labelled_mapChildren :
    (m.mapChildren Expr.lowered other).labelled =
      m.labelled.map fun c => (c.1, c.2.lowered) := by
  simp only [labelled, label?_mapChildren]
  by_cases hname : m.kind = .fieldStr ∨ m.kind = .fieldExpr <;>
    simp [hasNameExpr, mapChildren, hname, Option.toList_map, Function.comp_def]

end Children

end Member

/-! ## Symbols of a lowered object -/

/-- The symbols of two objects together are those of both, in another order. -/
theorem LoweredObject.symbolsIn_append_perm (a b : LoweredObject Expr) (owner : Location)
    (context : List String) :
    ((a.append b).symbolsIn owner context).Perm
      (a.symbolsIn owner context ++ b.symbolsIn owner context) := by
  rw [← Multiset.coe_eq_coe]
  simp only [LoweredObject.symbolsIn, LoweredObject.append, List.map_append, List.filterMap_append,
    List.flatMap_append, ← Multiset.coe_add]
  ac_rfl

/-- The symbols of lowered members are what they declare and the symbols of their expressions, in
another order. -/
theorem Member.symbolsIn_lower_perm {ms : List (Member Expr)} {parts : List (LoweredObject Expr)}
    {owner : Location} (hms : ∀ m ∈ ms, m.IsRegular)
    (h : List.Forall₂ (fun m part => m.lower owner = .ok part) ms parts) (context : List String) :
    ((parts.foldr LoweredObject.append .empty).symbolsIn owner context).Perm
      (ms.filterMap (·.declared? owner context) ++
        ms.flatMap fun m => m.labelled.flatMap fun c => c.2.symbolsIn (context ++ c.1.toList)) := by
  rw [List.filterMap_eq_flatMap_toList]
  refine .trans ?_ (List.flatMap_append_perm ..).symm
  induction h with
  | nil => exact .nil
  | @cons m part ms parts hm _ ih =>
    obtain ⟨hfirst, hrest⟩ := List.forall_mem_cons.mp hms
    have hboth := LoweredObject.symbolsIn_append_perm part
      (parts.foldr LoweredObject.append .empty) owner context
    rw [Member.symbolsIn_lower hfirst hm] at hboth
    rw [List.flatMap_cons]
    exact hboth.trans ((ih hrest).append_left _)

namespace Expr

variable {e l : Expr}

/-- The children of an object literal are those of its members, in another order. -/
theorem labelledChildren_perm {o : ObjectLiteral Expr} (h : e.form = .object o) :
    e.labelledChildren.Perm (o.members.flatMap (·.labelled)) := by
  have hperm := (List.filter_append_perm (·.isLocal) o.members).flatMap_right (·.labelled)
  rw [List.flatMap_append] at hperm
  rw [labelledChildren, h]
  exact hperm

/-- The symbols of a lowered object literal are what its members declare and the symbols of its
lowered children, in another order. -/
theorem symbolsIn_lower_object {o : ObjectLiteral Expr} {lo : LoweredObject Expr}
    (hform : e.form = .object o) (hregular : ∀ m ∈ o.members, m.IsRegular)
    (h : ObjectLiteral.lower ⟨o.members.map (·.mapChildren lowered id), o.trailingComma,
      o.closeFodder⟩ e.location = .ok lo) (context : List String) :
    (lo.symbolsIn e.location context).Perm (e.declared context ++
      e.labelledChildren.flatMap fun c =>
        c.2.lowered.symbolsIn (context ++ c.1.toList)) := by
  have hregular' : ∀ m ∈ o.members.map (·.mapChildren lowered id), m.IsRegular :=
    List.forall_mem_map.mpr fun m hm => (hregular m hm).mapChildren
  obtain ⟨parts, hparts, h⟩ := Outcome.bind_eq_ok h
  obtain rfl := Except.ok.inj h
  have hmembers := Member.symbolsIn_lower_perm hregular' (Outcome.mapM_eq_ok hparts) context
  simp only [List.filterMap_map, List.flatMap_map, Function.comp_def,
    Member.declared?_mapChildren, Member.labelled_mapChildren] at hmembers
  rw [← List.flatMap_assoc] at hmembers
  rw [declared, hform]
  exact hmembers.trans (((labelledChildren_perm hform).flatMap_right _).symm.append_left _)

/-- An expression that is no object has the symbols of its bindings and of its lowered children. -/
theorem symbolsIn_lower_other (hobject : ∀ o, e.form ≠ .object o)
    (hlowered : ∀ o, e.form ≠ .loweredObject o) (context : List String) :
    (e.mapChildren lowered).symbolsIn context = e.declared context ++
      e.labelledChildren.flatMap fun c =>
        c.2.lowered.symbolsIn (context ++ c.1.toList) := by
  have hchildren : e.labelledChildren = e.children.map (none, ·) := by
    unfold labelledChildren
    cases hform : e.form with
    | object o => exact absurd hform (hobject o)
    | _ => rfl
  have hdeclared : e.declared context =
      e.bindingsHere.map fun b => (b.map lowered).symbol .localBind e.location context := by
    unfold declared bindingsHere
    cases hform : e.form with
    | object o => exact absurd hform (hobject o)
    | _ => rfl
  have hform : ∀ o, (e.mapChildren lowered).form ≠ .loweredObject o := by
    intro o
    rw [mapChildren]
    cases hform : e.form with
    | loweredObject o => exact absurd hform (hlowered o)
    | _ => simp [Form.mapChildren, Form.map]
  rw [symbolsIn_of_other hform, bindingsHere_mapChildren, children_mapChildren, hdeclared,
    hchildren, List.map_map, List.flatMap_map, List.flatMap_map]
  simp only [Option.toList_none, List.append_nil]
  rfl

/-- The symbols of a lowered expression are what is declared in the expression, in another order. -/
theorem symbolsIn_lower_perm (hfits : e.Fits .raw) (hregular : e.IsRegular) (h : e.lower = .ok l)
    (context : List String) :
    (l.symbolsIn context).Perm (Naming.fields.collect declared e context) := by
  induction e using induct_children generalizing l context with
  | h e ih =>
    have hchild : ∀ c ∈ e.labelledChildren, ∀ context,
        (c.2.lowered.symbolsIn context).Perm (Naming.fields.collect declared c.2 context) := by
      intro c hc context
      have hc : c.2 ∈ e.children := Naming.fields.map_snd e ▸ List.mem_map_of_mem hc
      obtain ⟨c', hc'⟩ := (lower_eq_ok_iff.mp h).1 c.2 hc
      rw [lowered_of_lower hc']
      exact ih c.2 hc (fun a ha => hfits a (.child hc ha))
        (fun a o ha => hregular a o (.child hc ha)) hc' context
    have hhere : (l.symbolsIn context).Perm (e.declared context ++
        e.labelledChildren.flatMap fun c =>
          c.2.lowered.symbolsIn (context ++ c.1.toList)) := by
      obtain ⟨o, lo, hform, hlower, rfl⟩ | ⟨hother, rfl⟩ := lower_cases h
      · rw [symbolsIn_of_loweredObject rfl]
        exact symbolsIn_lower_object hform (hregular e o (.refl e) hform) hlower context
      · have hraw : ∀ o, e.form ≠ .loweredObject o := forbids_raw_iff.mp (hfits e (.refl e))
        rw [symbolsIn_lower_other hother hraw]
    rw [Naming.collect_eq]
    exact hhere.trans ((List.Perm.flatMap_left _ fun c hc => hchild c hc _).append_left _)

end Expr

/-! ## Whole trees -/

namespace Tree

/-- The symbols of a lowered tree are what is declared at all places of the tree as it is written,
each with the labels of the fields around it, in another order. -/
theorem symbols_lower_perm {t lowered : Tree} {limit limit' : Nat} {symbols : List Symbol}
    (hshape : t.checkShape = .ok ())
    (hmembers : ∀ e o, t.root.Reaches e → e.form = .object o → ∀ m ∈ o.members,
      (m.kind ≠ .assert → m.expr3 = none) ∧ (m.kind = .assert → m.method = none))
    (hlower : t.lower limit = .ok lowered)
    (hsymbols : lowered.root.extractSymbols limit' = .ok symbols) :
    symbols.Perm (t.root.occurrences.flatMap fun o =>
      o.expr.declared (Naming.fields.context t.root o.path)) := by
  obtain ⟨hraw, -, root, hroot, rfl⟩ := lower_eq_ok hlower
  obtain ⟨⟨⟩, -, hsymbols⟩ := Outcome.bind_eq_ok hsymbols
  obtain rfl := Except.ok.inj hsymbols
  have hfits : t.root.Fits .raw := hraw ▸ checkShape_eq_ok_iff.mp hshape
  exact Expr.symbolsIn_lower_perm hfits hmembers hroot []

/-- The symbols of an object with a method, an assertion, a local binding, a computed name and a
comprehension. -/
theorem symbols_lower_perm_members :
    let inner (name : String) : Expr := Build.object [Build.fieldId name .inherit Build.null]
    let params : Parameters Expr := ⟨[], [⟨[], "y", [], some (inner "g"), [], .unset⟩], false, []⟩
    let t : Tree := ⟨.raw, Build.object [
      { Build.fieldId "f" .inherit (inner "h") with method := some params },
      Build.objectAssert (Build.locals [("u", Build.null)] (Build.var "u")) none,
      Build.fieldExpr (Build.locals [("v", Build.null)] (Build.var "v")) .inherit (inner "p"),
      Build.fieldStr "s" .hidden (.ofForm (.objectComp ⟨[Build.fieldStr "q" .inherit (inner "r")],
        false, Build.clause "i" (Build.var "z") [], []⟩)),
      Build.objectLocal "z" (inner "w")], []⟩
    let symbol (name : String) (kind : SymbolKind) (context : List String) : Symbol :=
      ⟨name, kind, context, .unset⟩
    let symbols := [symbol "z" .objectLocal [], symbol "f" .field [], symbol "s" .field [],
      symbol "v" .localBind [], symbol "g" .field ["f"], symbol "h" .field ["f"],
      symbol "p" .field [], symbol "r" .field ["s"], symbol "w" .field [],
      symbol "u" .localBind []]
    t.checkShape = .ok () ∧
      (∀ e o, t.root.Reaches e → e.form = .object o → ∀ m ∈ o.members,
        (m.kind ≠ .assert → m.expr3 = none) ∧ (m.kind = .assert → m.method = none)) ∧
      ∃ lowered, t.lower 9 = .ok lowered ∧ lowered.root.extractSymbols 9 = .ok symbols ∧
        symbols.Perm (t.root.occurrences.flatMap fun o =>
          o.expr.declared (Naming.fields.context t.root o.path)) := by
  intro inner params t symbol symbols
  have hshape : t.checkShape = .ok () := by decide +kernel
  have hmembers : t.root.IsRegular := by
    have hall : ((t.root.preorder.flatMap Expr.membersHere).all fun m => m.IsRegular) = true := by
      decide +kernel
    exact Expr.isRegular_iff.mpr fun m hm => by simpa using List.all_eq_true.mp hall m hm
  let lowered : Tree := ⟨.lowered, t.root.lowered, []⟩
  have hlower : t.lower 9 = .ok lowered :=
    lower_of_root rfl (by decide +kernel) (by decide +kernel)
  have hsymbols : lowered.root.extractSymbols 9 = .ok symbols := by decide +kernel
  exact ⟨hshape, hmembers, lowered, hlower, hsymbols,
    symbols_lower_perm hshape hmembers hlower hsymbols⟩

end Tree

end JsonnetTree
