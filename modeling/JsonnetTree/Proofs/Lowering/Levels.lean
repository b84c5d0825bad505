import JsonnetTree.Proofs.Document.Levels
import JsonnetTree.Proofs.Lowering.Findings

/-!
# Levels of a lowered document

The document of a lowered tree holds most expressions as far inside as that of the tree does. Only
the members of object literals are moved (`Member.loweredLinks`): the value of a method goes below a
function, the condition of an assertion below a conditional, and its message below an error as well.
This says from the tree alone whether the text that is written for the lowered tree is loaded again
(`Tree.load_lowered_of_levels`). Without methods and assertions it is, as soon as the tree is within
the limit on the depth and its own document holds no child more than five levels inside its parent
(`Tree.load_lowered_of_plain`).
-/

namespace JsonnetTree

open Json

variable {α β : Type}

/-! ## Where a lowered document holds subexpressions -/

/-- The expressions of a member that lowering keeps, and how many levels further inside the document
they are than the lowered object. -/
def Member.loweredLinks (m : Member α) : List (Link α) :=
  if m.kind = .assert then m.expr2.toList.map (⟨·, 7⟩) ++ m.expr3.toList.map (⟨·, 10⟩)
  else
    (if m.hasNameExpr then m.expr1.toList else []).map (⟨·, 5⟩) ++
      (Parameters.fallbacks? m.method).map (⟨·, 11⟩) ++
      m.expr2.toList.map (⟨·, if m.method.isSome then 8 else 5⟩)

namespace Form

/-- The children of a form that lowering keeps, and how many levels further inside the document they
are after it. -/
def loweredLinks : Form α → List (Link α)
  | .object o => o.members.flatMap (·.loweredLinks)
  | form => form.links

/-- The expressions that a form holds besides its children after it is lowered. -/
def loweredAsides : Form α → List (Link α)
  | .object _ => []
  | form => form.asides

end Form

/-- A link to a changed expression, at the same place. -/
def Link.map (f : α → β) (link : Link α) : Link β :=
  ⟨f link.expr, link.levels⟩

section MapChildren

variable (child other : α → β)

/-- The links of changed clauses lead to the changed expressions. -/
theorem Clauses.links_map (level : Nat) (cs : Clauses α) :
    (cs.map child).links level = (cs.links level).map (·.map child) := by
  have hclause (level : Nat) (c : Clause α) :
      (c.map child).links level = (c.links level).map (·.map child) := by
    simp [Clause.links, Clause.map, Condition.map, Link.map, Function.comp_def]
  induction cs generalizing level with
  | outermost clause => simp [links, Clauses.map, hclause]
  | inside outer clause ih => simp [links, Clauses.map, hclause, ih]

/-- The links of changed members lead to the changed expressions. -/
theorem Member.allLinks_mapChildren (ms : List (Member α)) :
    allLinks (ms.map (·.mapChildren child other)) = (allLinks ms).map (·.map child) := by
  have hlinks (m : Member α) :
      (m.mapChildren child other).links = m.links.map (·.map child) := by
    by_cases h : m.kind = .fieldStr ∨ m.kind = .fieldExpr <;>
      simp [Member.links, Member.hasNameExpr, Member.mapChildren, Option.toList_map, h, Link.map,
        Function.comp_def]
  simp [allLinks, List.filter_map, List.flatMap_map, List.map_flatMap, Function.comp_def, hlinks]

/-- The links of a changed form lead to the changed children. -/
theorem Form.links_mapChildren (form : Form α) :
    (form.mapChildren child other).links = form.links.map (·.map child) := by
  cases form with
  | object o => exact Member.allLinks_mapChildren child other o.members
  | objectComp o =>
    simp [mapChildren, links, Member.allLinks_mapChildren, Clauses.links_map]
  | arrayComp a => simp [mapChildren, Form.map, links, Clauses.links_map, Link.map]
  | _ =>
    simp [mapChildren, Form.map, links, LoweredObject.mapChildren, Binding.mapBody,
      LoweredField.map, Element.map, Binding.map, Link.map, Function.comp_def, List.flatMap_map,
      List.map_flatMap, children, operands, deferred, Option.toList_map]

/-- The expressions that a changed form holds besides its children are changed apart. -/
theorem Form.asides_mapChildren (form : Form α) :
    (form.mapChildren child other).asides = form.asides.map (·.map other) := by
  have hmember (m : Member α) :
      (m.mapChildren child other).asides = m.asides.map (·.map other) := by
    by_cases h : m.kind = .fieldStr ∨ m.kind = .fieldExpr <;>
      simp [Member.asides, Member.hasNameExpr, Member.mapChildren, Option.toList_map, h, Link.map,
        Function.comp_def]
  cases form with
  | importCode file | importText file => rfl
  | object o | objectComp o =>
    simp [mapChildren, asides, hmember, List.flatMap_map, List.map_flatMap]
  | loweredObject o =>
    simp [mapChildren, asides, LoweredObject.mapChildren, Binding.mapBody, List.flatMap_map,
      List.map_flatMap, Link.map, Function.comp_def]
  | _ => rfl

/-- What lowering keeps of a changed member are the changed expressions. -/
theorem Member.loweredLinks_mapChildren (m : Member α) :
    (m.mapChildren child other).loweredLinks = m.loweredLinks.map (·.map child) := by
  have hkind : (m.mapChildren child other).kind = m.kind := rfl
  rw [loweredLinks, loweredLinks, hkind]
  by_cases hassert : m.kind = .assert
  · simp [hassert, mapChildren, Option.toList_map, Link.map, Function.comp_def]
  · rw [if_neg hassert, if_neg hassert]
    by_cases hname : m.kind = .fieldStr ∨ m.kind = .fieldExpr <;>
      simp [hname, hasNameExpr, mapChildren, Option.toList_map, Link.map,
        Function.comp_def]

end MapChildren

/-- What a lowered member links to was an expression of the member. -/
theorem Member.mem_exprs_of_mem_loweredLinks {m : Member α} {link : Link α}
    (h : link ∈ m.loweredLinks) : link.expr ∈ m.exprs := by
  have hmem := List.mem_map_of_mem (f := (·.expr)) h
  rw [loweredLinks] at hmem
  simp only [exprs, List.mem_append]
  split at hmem <;>
    simp only [List.map_append, List.map_map, Function.comp_def, List.map_id_fun',
      List.mem_append] at hmem
  · rcases hmem with hmem | hmem
    · exact .inl (.inr hmem)
    · exact .inr hmem
  · exact .inl hmem

/-- Bindings and fields that are no methods stay where they are. -/
theorem Member.levels_of_mem_loweredLinks {m : Member α} {link : Link α} (hassert : m.kind ≠ .assert)
    (hmethod : m.method = none) (h : link ∈ m.loweredLinks) : link.levels = 5 := by
  have hlink : (∃ e, (m.hasNameExpr = true ∧ m.expr1 = some e) ∧ ⟨e, 5⟩ = link) ∨
      ∃ e, m.expr2 = some e ∧ ⟨e, 5⟩ = link := by
    simpa [loweredLinks, hassert, hmethod, Parameters.fallbacks?] using h
  obtain ⟨e, -, rfl⟩ | ⟨e, -, rfl⟩ := hlink <;> rfl

namespace Form

/-- Lowering moves the members of object literals and nothing else. -/
theorem loweredLinks_of_other {form : Form α} (h : ∀ o, form ≠ .object o) :
    form.loweredLinks = form.links ∧ form.loweredAsides = form.asides := by
  cases form with
  | object o => exact absurd rfl (h o)
  | _ => exact ⟨rfl, rfl⟩

/-- What a lowered form links to was a child of the form. -/
theorem mem_children_of_mem_loweredLinks {form : Form Expr} {link : Link Expr}
    (h : link ∈ form.loweredLinks) : link.expr ∈ form.children := by
  by_cases hobject : ∃ o, form = .object o
  · obtain ⟨o, rfl⟩ := hobject
    obtain ⟨m, hm, hlink⟩ := List.mem_flatMap.mp h
    have hmem := Member.mem_allExprs hm (Member.mem_exprs_of_mem_loweredLinks hlink)
    simpa [children, operands, deferred] using hmem
  · have hother : ∀ o, form ≠ .object o := fun o ho => hobject ⟨o, ho⟩
    rw [(loweredLinks_of_other hother).1] at h
    rw [← map_expr_links]
    exact List.mem_map_of_mem h

end Form

/-! ## What members are lowered to -/

section Members

variable {limit : Nat}

/-- An expression without its fodder is nested no more deeply. -/
theorem Expr.within_fodder {bound level : Nat} {e : Expr}
    (h : (Expr.codecUpTo bound).Within limit level e) :
    (Expr.codecUpTo bound).Within limit level { e with fodder := [] } := by
  cases bound with
  | zero => exact h
  | succ bound =>
    have hfodder : 1 ≤ (Fodder.codec.write e.fodder).nesting := by
      simp only [Fodder.codec, Codec.list, Value.ofList, Value.nesting]
      omega
    have hempty : (Fodder.codec.write []).nesting = 1 := rfl
    simp only [Codec.Within, Expr.codecUpTo, Expr.record, Record.codec, Fields.location,
      Fields.fodder, Fields.withDefault, Fields.required, Fields.write, Value.ofMembers,
      List.map_cons, List.map_nil, Value.nesting, Value.nestingMembers] at h ⊢
    omega

/-- What an assertion is lowered to stays within the limit if its condition and its message do,
further inside. -/
theorem Expr.within_assertion {location : Location} {condition message : Expr} (hlimit : 18 ≤ limit)
    (hcondition : ∀ bound, (Expr.codecUpTo bound).Within limit 7 condition)
    (hmessage : ∀ bound, (Expr.codecUpTo bound).Within limit 10 message) (bound : Nat) :
    (Expr.codecUpTo bound).Within limit 4 { Build.conditional condition (Build.boolean true)
      (some (Build.error message)) with location } := by
  have htrue : ∀ bound, (Expr.codecUpTo bound).Within limit 7 (Build.boolean true) :=
    within_of_links (by omega) (fun link hlink => absurd hlink List.not_mem_nil)
      fun aside haside => absurd haside List.not_mem_nil
  have herror : ∀ bound, (Expr.codecUpTo bound).Within limit 7 (Build.error message) := by
    refine within_of_links (by omega) (fun link hlink => ?_)
      fun aside haside => absurd haside List.not_mem_nil
    obtain rfl := List.mem_singleton.mp hlink
    have hroom : 17 ≤ limit := by omega
    exact ⟨hroom, hmessage⟩
  refine within_of_links (by omega) (fun link hlink => ?_)
    (fun aside haside => absurd haside List.not_mem_nil) bound
  have hlink : link = ⟨condition, 3⟩ ∨ link = ⟨Build.boolean true, 3⟩ ∨
      link = ⟨Build.error message, 3⟩ := by
    simpa [Build.conditional, ofForm, Form.links, Form.children, Form.operands,
      Form.deferred] using hlink
  have hroom : 14 ≤ limit := by omega
  rcases hlink with rfl | rfl | rfl
  · exact ⟨hroom, hcondition⟩
  · exact ⟨hroom, htrue⟩
  · exact ⟨hroom, herror⟩

namespace Member

variable {m : Member Expr}
  (hlinks : ∀ link ∈ m.loweredLinks, link.levels + 11 ≤ limit ∧
    ∀ bound, (Expr.codecUpTo bound).Within limit link.levels link.expr)

include hlinks

/-- A binding or a field has a value, for which there is room. -/
theorem le_of_loweredValue {value : Expr} (hkind : m.kind ≠ .assert)
    (h : m.loweredValue = .ok value) : 16 ≤ limit := by
  obtain ⟨body, hbody, -⟩ := loweredValue_eq_ok h
  have hlink : ⟨body, if m.method.isSome then 8 else 5⟩ ∈ m.loweredLinks := by
    simp [loweredLinks, hkind, hbody]
  have hroom := (hlinks _ hlink).1
  dsimp only at hroom
  split at hroom <;> omega

/-- The value of a binding or a field stays within the limit, below a function or not. -/
theorem within_loweredValue {value : Expr} (hkind : m.kind ≠ .assert)
    (h : m.loweredValue = .ok value) (bound : Nat) :
    (Expr.codecUpTo bound).Within limit 5 value := by
  obtain ⟨body, hbody, ⟨hmethod, rfl⟩ | ⟨params, hmethod, rfl⟩⟩ := loweredValue_eq_ok h
  · have hvalue : ⟨value, 5⟩ ∈ m.loweredLinks := by
      simp [loweredLinks, hkind, hbody, hmethod]
    exact (hlinks _ hvalue).2 bound
  · have hbody : ⟨body, 8⟩ ∈ m.loweredLinks := by
      simp [loweredLinks, hkind, hbody, hmethod]
    have hlimit : 19 ≤ limit := (hlinks _ hbody).1
    refine Expr.within_of_links (by omega) (fun link hlink => ?_)
      (fun aside haside => absurd haside List.not_mem_nil) bound
    have hlink : (∃ fallback ∈ params.fallbacks, ⟨fallback, 6⟩ = link) ∨ link = ⟨body, 3⟩ := by
      simpa [Expr.ofForm, Form.links] using hlink
    rcases hlink with ⟨fallback, hfallback, rfl⟩ | rfl
    · have hfallback : ⟨fallback, 11⟩ ∈ m.loweredLinks := by
        simp [loweredLinks, hkind, hmethod, Parameters.fallbacks?, hfallback]
      have hroom : 18 ≤ limit := by omega
      exact ⟨hroom, (hlinks _ hfallback).2⟩
    · have hroom : 15 ≤ limit := by omega
      exact ⟨hroom, (hlinks _ hbody).2⟩

/-- The name of a field stays within the limit. -/
theorem within_loweredName {name : Expr} (hlimit : 9 ≤ limit) (hassert : m.kind ≠ .assert)
    (hkind : m.kind = .fieldId ∨ m.hasNameExpr = true) (h : m.loweredName = .ok name)
    (bound : Nat) : (Expr.codecUpTo bound).Within limit 5 name := by
  obtain ⟨id, -, -, rfl⟩ | ⟨e, hne, he, rfl⟩ := loweredName_eq_ok h
  · have hliteral := Expr.nesting_write_literal (x := Build.string id) rfl bound
    rw [Codec.Within]
    omega
  · have hname : m.hasNameExpr = true := hkind.resolve_left hne
    have hlink : ⟨e, 5⟩ ∈ m.loweredLinks := by
      simp [loweredLinks, hassert, hname, he]
    exact Expr.within_fodder ((hlinks _ hlink).2 bound)

/-- What a member is lowered to stays within the limit. -/
theorem staysWithin_lower {owner : Location} {part : LoweredObject Expr} {link : Link Expr}
    (h : m.lower owner = .ok part) (hlink : link ∈ (Form.loweredObject part).links) :
    link.StaysWithin limit 0 := by
  obtain ⟨hkind, name, body, -, hbody, rfl⟩ | ⟨hkind, condition, hcondition, rfl⟩ |
    ⟨hkind, name, body, hname, hbody, rfl⟩ := lower_eq_ok_iff.mp h
  · obtain rfl : link = ⟨body, 5⟩ := by
      simpa [Form.links, LoweredObject.empty] using hlink
    have hassert : m.kind ≠ .assert := by simp [hkind]
    have hlimit := le_of_loweredValue hlinks hassert hbody
    have hroom : 12 ≤ limit := by omega
    exact ⟨hroom, within_loweredValue hlinks hassert hbody⟩
  · obtain rfl := List.mem_singleton.mp hlink
    have hcondition : ⟨condition, 7⟩ ∈ m.loweredLinks := by
      simp [loweredLinks, hkind, hcondition]
    have hlimit : 18 ≤ limit := (hlinks _ hcondition).1
    have hroom : 11 ≤ limit := by omega
    refine ⟨hroom, Expr.within_assertion hlimit (hlinks _ hcondition).2 fun bound => ?_⟩
    cases hexpr3 : m.expr3 with
    | none =>
      have hliteral := Expr.nesting_write_literal (x := Build.string defaultAssertMessage) rfl bound
      rw [Option.getD_none, Codec.Within]
      omega
    | some message =>
      have hmessage : ⟨message, 10⟩ ∈ m.loweredLinks := by
        simp [loweredLinks, hkind, hexpr3]
      exact (hlinks _ hmessage).2 bound
  · have hassert : m.kind ≠ .assert := by
      intro hassert
      simp [hasNameExpr, hassert] at hkind
    have hlimit := le_of_loweredValue hlinks hassert hbody
    have hroom : 12 ≤ limit := by omega
    have hlink : link = ⟨name, 5⟩ ∨ link = ⟨body, 5⟩ := by
      simpa [Form.links, LoweredObject.empty] using hlink
    rcases hlink with rfl | rfl
    · exact ⟨hroom, within_loweredName hlinks (by omega) hassert hkind hname⟩
    · exact ⟨hroom, within_loweredValue hlinks hassert hbody⟩

end Member

/-- The parameters of methods are put into functions, so that the bindings of a lowered object have
none. -/
theorem Member.asides_lower {m : Member Expr} {owner : Location} {part : LoweredObject Expr}
    (h : m.lower owner = .ok part) : (Form.loweredObject part).asides = [] := by
  obtain ⟨-, name, body, -, -, rfl⟩ | ⟨-, condition, -, rfl⟩ | ⟨-, name, body, -, -, rfl⟩ :=
    lower_eq_ok_iff.mp h <;> rfl

end Members

/-! ## Expressions and trees -/

namespace ObjectLiteral

variable {literal : ObjectLiteral Expr} {owner : Location} {o : LoweredObject Expr}

/-- What a lowered object links to comes from some member. -/
theorem exists_of_mem_links {link : Link Expr} (h : literal.lower owner = .ok o)
    (hlink : link ∈ (Form.loweredObject o).links) :
    ∃ m ∈ literal.members, ∃ part, m.lower owner = .ok part ∧
      link ∈ (Form.loweredObject part).links := by
  refine exists_of_mem_view rfl (fun a b hlink => ?_) h hlink
  simp only [Form.links, LoweredObject.append, List.map_append, List.mem_append] at hlink ⊢
  tauto

/-- A lowered object holds nothing besides its children. -/
theorem asides_lower (h : literal.lower owner = .ok o) : (Form.loweredObject o).asides = [] := by
  refine List.eq_nil_iff_forall_not_mem.mpr fun aside haside => ?_
  have hmember : ∃ m ∈ literal.members, ∃ part, m.lower owner = .ok part ∧
      aside ∈ (Form.loweredObject part).asides := by
    refine exists_of_mem_view rfl (fun a b haside => ?_) h haside
    simpa [Form.asides, LoweredObject.append] using haside
  obtain ⟨m, -, part, hpart, haside⟩ := hmember
  rw [Member.asides_lower hpart] at haside
  cases haside

end ObjectLiteral

/-- If lowering puts every child at most `k` levels inside its parent, and everything else that is
kept is a string literal, then the lowered expression takes at most `k` levels of the document for
each level below the expression, and eleven more. -/
theorem Expr.nesting_write_lower_le {k : Nat} {e l : Expr} (h : e.lower = .ok l)
    (hlinks : ∀ a, e.Reaches a → ∀ link ∈ a.form.loweredLinks, link.levels ≤ k)
    (hasides : ∀ a, e.Reaches a → ∀ aside ∈ a.form.loweredAsides,
      aside.expr.literal?.isSome = true) (bound : Nat) :
    ((Expr.codecUpTo bound).write l).nesting ≤ k * e.depth + 11 := by
  induction e using induct_children generalizing l bound with
  | h e ih =>
    have hchild : ∀ link ∈ e.form.loweredLinks, link.levels + 11 ≤ k * e.depth + 11 ∧
        ∀ bound, (Expr.codecUpTo bound).Within (k * e.depth + 11) link.levels
          link.expr.lowered := by
      intro link hlink
      have hmem : link.expr ∈ e.children := Form.mem_children_of_mem_loweredLinks hlink
      have hroom := levels_add_le (hlinks e (.refl e) link hlink) hmem
      refine ⟨by omega, fun bound => ?_⟩
      obtain ⟨c', hc'⟩ := (lower_eq_ok_iff.mp h).1 _ hmem
      have hnesting := ih link.expr hmem hc' (fun a ha => hlinks a (.child hmem ha))
        (fun a ha => hasides a (.child hmem ha)) bound
      rw [lowered_of_lower hc', Codec.Within]
      omega
    have hwithin : (Expr.codecUpTo bound).Within (k * e.depth + 11) 0 l := by
      obtain ⟨o, lo, hform, hlower, rfl⟩ | ⟨hother, rfl⟩ := lower_cases h
      · refine within_of_links (by omega) (fun link hlink => ?_) (fun aside haside => ?_) bound
        · obtain ⟨_, hmapped, part, hpart, hlink⟩ := ObjectLiteral.exists_of_mem_links hlower hlink
          obtain ⟨m, hm, rfl⟩ := List.mem_map.mp hmapped
          refine Member.staysWithin_lower (fun link hlink => ?_) hpart hlink
          rw [Member.loweredLinks_mapChildren] at hlink
          obtain ⟨old, hold, rfl⟩ := List.mem_map.mp hlink
          refine hchild old ?_
          rw [hform]
          exact List.mem_flatMap.mpr ⟨m, hm, hold⟩
        · have haside : aside ∈ (Form.loweredObject lo).asides := haside
          rw [ObjectLiteral.asides_lower hlower] at haside
          cases haside
      · obtain ⟨hlinksEq, hasidesEq⟩ := Form.loweredLinks_of_other hother
        rw [hlinksEq] at hchild
        refine within_of_links (by omega) (fun link hlink => ?_) (fun aside haside => ?_) bound
        · rw [mapChildren, Form.links_mapChildren] at hlink
          obtain ⟨old, hold, rfl⟩ := List.mem_map.mp hlink
          obtain ⟨hroom, hexpr⟩ := hchild old hold
          have hroom : old.levels + 7 ≤ k * e.depth + 11 := by omega
          rw [Link.StaysWithin, Nat.zero_add]
          exact ⟨hroom, hexpr⟩
        · rw [mapChildren, Form.asides_mapChildren] at haside
          obtain ⟨old, hold, rfl⟩ := List.mem_map.mp haside
          exact hasides e (.refl e) old (hasidesEq ▸ hold)
    rwa [Codec.Within, Nat.zero_add] at hwithin

namespace Tree

variable {k maxDepth : Nat} {t : Tree} {text : String}

/-- The text that is written for a lowered tree is loaded as that tree if the limit on the nesting
allows `k` levels for each level of the tree before it is lowered and twelve more, where `k` bounds
how far inside its parent lowering puts a child. -/
theorem load_lowered_of_levels (h : Command.run maxDepth t .lower = .ok text)
    (hlinks : ∀ a, t.root.Reaches a → ∀ link ∈ a.form.loweredLinks, link.levels ≤ k)
    (hasides : ∀ a, t.root.Reaches a → ∀ aside ∈ a.form.loweredAsides,
      aside.expr.literal?.isSome = true)
    (hlimit : k * t.root.depth + 12 ≤ nestingLimit maxDepth) (file : String) :
    ∃ lowered, t.lower maxDepth = .ok lowered ∧ Tree.load maxDepth file text = .ok lowered := by
  obtain ⟨lowered, hlower, rfl⟩ := run_lower_eq_ok_iff.mp h
  obtain ⟨-, -, root, hroot, rfl⟩ := lower_eq_ok hlower
  have hnesting : (Tree.codec.write { t with shape := .lowered, root }).nesting ≤
      k * t.root.depth + 12 :=
    nesting_write_le_of_root (Expr.nesting_write_lower_le hroot hlinks hasides root.height)
  refine ⟨_, hlower, ?_⟩
  rw [load_loweredText hlower, if_pos (Nat.le_trans hnesting hlimit)]

/-- If no object literal has methods or assertions, and no child is more than five levels inside its
parent, then whatever is written for the lowered tree is loaded with the same limit. -/
theorem load_lowered_of_plain (h : Command.run maxDepth t .lower = .ok text)
    (hplain : ∀ a, t.root.Reaches a → ∀ m ∈ a.membersHere, m.kind ≠ .assert ∧ m.method = none)
    (hlinks : ∀ a, t.root.Reaches a → ∀ link ∈ a.form.links, link.levels ≤ 5)
    (hasides : ∀ a, t.root.Reaches a → ∀ aside ∈ a.form.loweredAsides,
      aside.expr.literal?.isSome = true)
    (hmax : (maxDepth + 1) * 6 ≤ maxCount) (file : String) :
    ∃ lowered, t.lower maxDepth = .ok lowered ∧ Tree.load maxDepth file text = .ok lowered := by
  have hdepth : t.root.depth ≤ maxDepth := by
    obtain ⟨lowered, hlower, -⟩ := run_lower_eq_ok_iff.mp h
    obtain ⟨-, hdepth, -⟩ := lower_eq_ok hlower
    exact Expr.checkDepth_eq_ok_iff.mp hdepth
  have hlowered : ∀ a, t.root.Reaches a → ∀ link ∈ a.form.loweredLinks, link.levels ≤ 5 := by
    intro a ha link hlink
    cases hform : a.form with
    | object o =>
      rw [hform] at hlink
      obtain ⟨m, hm, hlink⟩ := List.mem_flatMap.mp hlink
      obtain ⟨hassert, hmethod⟩ := hplain a ha m (by rwa [Expr.membersHere, hform])
      exact (Member.levels_of_mem_loweredLinks hassert hmethod hlink).le
    | _ => exact hlinks a ha link (by rwa [hform] at hlink ⊢)
  refine load_lowered_of_levels h hlowered hasides ?_ file
  rw [nestingLimit_eq hmax]
  omega

end Tree

end JsonnetTree
