import JsonnetTree.Proofs.Depth
import JsonnetTree.Proofs.Document.Reload

/-!
# Levels of a document

The document of an expression holds its children several levels further inside. How many there are
depends on the form and on the place in it (`Form.links`): three for an operand, six for an
argument, eight for the default value of a parameter of a local function, and more with every clause
that is around another one. A tree whose children are all within `k` levels is nested at most `k`
levels for each level of its depth, and twelve more (`Tree.load_of_levels`). The limit on the
nesting allows six. That is enough for five (`Tree.load_of_levels_le_five`), and nearly for six
(`Tree.load_of_levels_le_six`), but some trees within the limit on the depth are kept out
(`Tree.load_nestedDefaults_refused`).
-/

namespace JsonnetTree

open Json

variable {α β ρ : Type}

/-! ## Where a document holds subexpressions -/

/-- A subexpression, and how many levels further inside the document it is than the expression that
holds it. -/
structure Link (α : Type) where
  expr : α
  levels : Nat

/-- The expressions of a clause, whose fields are at `level`. -/
def Clause.links (level : Nat) (c : Clause α) : List (Link α) :=
  ⟨c.expr, level⟩ :: c.conditions.map fun condition => ⟨condition.expr, level + 2⟩

/-- The expressions of clauses. The outer clauses are a field of the inner one. -/
def Clauses.links (level : Nat) : Clauses α → List (Link α)
  | .outermost clause => clause.links level
  | .inside outer clause => outer.links (level + 1) ++ clause.links level

/-- The expressions of a member that take part in its meaning. -/
def Member.links (m : Member α) : List (Link α) :=
  (if m.hasNameExpr then m.expr1.toList else []).map (⟨·, 5⟩) ++
    (Parameters.fallbacks? m.method).map (⟨·, 8⟩) ++ m.expr2.toList.map (⟨·, 5⟩) ++
    m.expr3.toList.map (⟨·, 5⟩)

/-- The expressions of a list of members: those of the local bindings come first. -/
def Member.allLinks (ms : List (Member α)) : List (Link α) :=
  (ms.filter (·.isLocal)).flatMap (·.links) ++ (ms.filter (!·.isLocal)).flatMap (·.links)

/-- An expression that a member holds without a meaning. -/
def Member.asides (m : Member α) : List (Link α) :=
  if m.hasNameExpr then [] else m.expr1.toList.map (⟨·, 5⟩)

namespace Form

/-- The children of a form, and how many levels further inside the document they are. -/
def links : Form α → List (Link α)
  | .apply a => ⟨a.target, 3⟩ :: a.arguments.exprs.map (⟨·, 6⟩)
  | .array a => a.elements.map fun element => ⟨element.expr, 5⟩
  | .arrayComp a => ⟨a.body, 3⟩ :: a.clauses.links 4
  | .function params body => params.fallbacks.map (⟨·, 6⟩) ++ [⟨body, 3⟩]
  | .locals binds body =>
    binds.flatMap (fun b => (Parameters.fallbacks? b.params).map (⟨·, 8⟩) ++ [⟨b.body, 5⟩]) ++
      [⟨body, 3⟩]
  | .object o => Member.allLinks o.members
  | .loweredObject o =>
    o.fields.map (⟨·.name, 5⟩) ++ o.fields.map (⟨·.body, 5⟩) ++ o.locals.map (⟨·.body, 5⟩) ++
      o.asserts.map (⟨·, 4⟩)
  | .objectComp o => Member.allLinks o.members ++ o.clauses.links 4
  | form => form.children.map (⟨·, 3⟩)

/-- The expressions that a form holds although they are no children of it. -/
def asides : Form α → List (Link α)
  | .importCode file | .importText file => [⟨file, 3⟩]
  | .object o => o.members.flatMap (·.asides)
  | .loweredObject o =>
    o.locals.flatMap fun b => (Parameters.fallbacks? b.params).map (⟨·, 8⟩)
  | .objectComp o => o.members.flatMap (·.asides)
  | _ => []

end Form

/-- The links of clauses lead to their expressions. -/
theorem Clauses.map_expr_links (level : Nat) (cs : Clauses α) :
    (cs.links level).map (·.expr) = cs.exprs := by
  induction cs generalizing level with
  | outermost clause => simp [links, exprs, Clause.links, Clause.exprs]
  | inside outer clause ih => simp [links, exprs, ih, Clause.links, Clause.exprs]

/-- The links of members lead to their expressions. -/
theorem Member.map_expr_allLinks (ms : List (Member α)) :
    (allLinks ms).map (·.expr) = allExprs ms := by
  have hlinks (m : Member α) : m.links.map (·.expr) = m.exprs := by
    simp [links, exprs, Function.comp_def]
  simp [allLinks, allExprs, List.map_flatMap, hlinks]

/-- The links of a form lead to its children. -/
theorem Form.map_expr_links (form : Form α) : form.links.map (·.expr) = form.children := by
  cases form with
  | arrayComp a => simp [links, children, operands, deferred, Clauses.map_expr_links]
  | object o => simp [links, children, operands, deferred, Member.map_expr_allLinks]
  | objectComp o =>
    simp [links, children, operands, deferred, Member.map_expr_allLinks, Clauses.map_expr_links]
  | locals binds body =>
    simp [links, children, operands, deferred, List.map_flatMap, Binding.exprs, Function.comp_def]
  | _ => simp [links, children, operands, deferred, Function.comp_def]

/-- What is no child is not much further inside the document than a child, or not far inside at
all. -/
theorem Form.levels_of_mem_asides {form : Form α} {aside : Link α} (h : aside ∈ form.asides) :
    aside.levels ≤ 7 ∨ ∃ link ∈ form.links, aside.levels ≤ link.levels + 3 := by
  have hmember {ms : List (Member α)} (h : aside ∈ ms.flatMap (·.asides)) : aside.levels ≤ 7 := by
    obtain ⟨m, -, haside⟩ := List.mem_flatMap.mp h
    rw [Member.asides] at haside
    split at haside
    · cases haside
    · obtain ⟨a, -, rfl⟩ := List.mem_map.mp haside
      exact Nat.le_add_right 5 2
  cases form with
  | importCode file | importText file =>
    obtain rfl := List.mem_singleton.mp h
    exact .inl (Nat.le_add_right 3 4)
  | object o | objectComp o => exact .inl (hmember h)
  | loweredObject o =>
    obtain ⟨b, hb, haside⟩ := List.mem_flatMap.mp h
    obtain ⟨a, -, rfl⟩ := List.mem_map.mp haside
    have hbody : ⟨b.body, 5⟩ ∈ (Form.loweredObject o).links :=
      List.mem_append_left _ (List.mem_append_right _ (List.mem_map_of_mem hb))
    exact .inr ⟨_, hbody, Nat.le_refl 8⟩
  | _ => cases h

/-! ## Staying within a limit -/

/-- What is written for `x` at `level` is nested within `limit`. -/
def Codec.Within (c : Codec β) (limit level : Nat) (x : β) : Prop :=
  level + (c.write x).nesting ≤ limit

/-- All fields of a row stay within the limit. -/
def Fields.Within (limit level : Nat) : {ts : List Type} → Fields ts → Row ts → Prop
  | _, .nil, _ => True
  | _, .cons field rest, (value, values) =>
    field.codec.Within limit level value ∧ rest.Within limit level values

section Rules

variable {c : Codec β} {limit level : Nat}

/-- A list takes one level. -/
theorem Codec.within_list {xs : List β} (hlevel : level < limit)
    (h : ∀ x ∈ xs, c.Within limit (level + 1) x) : c.list.Within limit level xs := by
  have hitems : level + 1 + Value.nestingItems (xs.map c.write) ≤ limit := by
    induction xs with
    | nil => exact hlevel
    | cons x xs ih =>
      obtain ⟨hx, hxs⟩ := List.forall_mem_cons.mp h
      have hrest := ih hxs
      simp only [Codec.Within, List.map_cons, Value.nestingItems] at *
      omega
  simp only [Codec.Within, Codec.list, Value.ofList, Value.nesting]
  omega

/-- What is absent takes no level. -/
theorem Codec.within_option {x : Option β} (hlevel : level ≤ limit)
    (h : ∀ b ∈ x, c.Within limit level b) : c.option.Within limit level x := by
  cases x with
  | none => exact hlevel
  | some b => exact h b rfl

/-- A word, a number or a truth value takes no level. -/
theorem Codec.within_flat {x : β} (hflat : (c.write x).nesting = 0) (hlevel : level ≤ limit) :
    c.Within limit level x := by
  rw [Codec.Within, hflat]
  exact hlevel

/-- The members of an object stay within the limit if the fields do. -/
theorem Fields.nestingMembers_write (hlevel : level ≤ limit) : {ts : List Type} →
    (fields : Fields ts) → {row : Row ts} → fields.Within limit level row →
    level + Value.nestingMembers ((fields.write row).map fun m => (.plain m.1, m.2)) ≤ limit
  | _, .nil, _, _ => hlevel
  | _, .cons field rest, (value, values), h => by
    have hvalue : field.codec.Within limit level value := h.1
    have hrest := nestingMembers_write hlevel rest h.2
    simp only [Codec.Within, write, List.map_cons, Value.nestingMembers] at *
    omega

/-- A record takes one level. -/
theorem Record.within {r : Record ρ} {x : ρ} (hlevel : level < limit)
    (h : r.fields.Within limit (level + 1) (r.toRow x)) : r.codec.Within limit level x := by
  have hmembers := r.fields.nestingMembers_write hlevel h
  simp only [Codec.Within, Record.codec, Value.ofMembers, Value.nesting]
  omega

/-- A location takes two levels. -/
theorem Location.within {l : Location} (hlevel : level + 2 ≤ limit) :
    Location.codec.Within limit level l := by
  have hposition {p : Position} : Position.record.codec.Within limit (level + 1) p :=
    Record.within hlevel ⟨Codec.within_flat rfl hlevel, Codec.within_flat rfl hlevel, trivial⟩
  exact Record.within (by omega)
    ⟨Codec.within_flat rfl (by omega), hposition, hposition, trivial⟩

/-- Fodder takes at most three levels. -/
theorem Fodder.within {f : Fodder} (hlevel : level + 3 ≤ limit) :
    Fodder.codec.Within limit level f := by
  refine Codec.within_list (by omega) fun element _ => Record.within (by omega) ?_
  have hcomment : (Codec.list .string).Within limit (level + 2) element.comment :=
    Codec.within_list (by omega) fun _ _ => Codec.within_flat rfl hlevel
  exact ⟨Codec.within_flat rfl (by omega), Codec.within_flat rfl (by omega),
    Codec.within_flat rfl (by omega), hcomment, trivial⟩

end Rules

/-! ## Parts of expressions -/

section Parts

variable {e : Codec α} {limit level : Nat}

/-- An element of a list takes one level. -/
theorem Element.within {x : Element α} (hlevel : level + 4 ≤ limit)
    (h : e.Within limit (level + 1) x.expr) : (Element.record e).codec.Within limit level x :=
  Record.within (by omega) ⟨h, Fodder.within hlevel, trivial⟩

/-- An argument passed by name takes one level. -/
theorem NamedArgument.within {a : NamedArgument α} (hlevel : level + 4 ≤ limit)
    (h : e.Within limit (level + 1) a.value) :
    (NamedArgument.record e).codec.Within limit level a :=
  Record.within (by omega)
    ⟨Fodder.within hlevel, Codec.within_flat rfl (by omega), Fodder.within hlevel, h,
      Fodder.within hlevel, trivial⟩

/-- The expressions among arguments are three levels further inside. -/
theorem Arguments.within {a : Arguments α} (hlevel : level + 6 ≤ limit)
    (h : ∀ x ∈ a.exprs, e.Within limit (level + 3) x) :
    (Arguments.record e).codec.Within limit level a := by
  have hpositional : (Element.record e).codec.list.Within limit (level + 1) a.positional :=
    Codec.within_list (by omega) fun x hx =>
      Element.within (by omega) (h _ (List.mem_append_left _ (List.mem_map_of_mem hx)))
  have hnamed : (NamedArgument.record e).codec.list.Within limit (level + 1) a.named :=
    Codec.within_list (by omega) fun x hx =>
      NamedArgument.within (by omega) (h _ (List.mem_append_right _ (List.mem_map_of_mem hx)))
  exact Record.within (by omega) ⟨hpositional, hnamed, trivial⟩

/-- A parameter takes one level. -/
theorem Parameter.within {p : Parameter α} (hlevel : level + 4 ≤ limit)
    (h : ∀ x ∈ p.fallback, e.Within limit (level + 1) x) :
    (Parameter.record e).codec.Within limit level p :=
  Record.within (by omega)
    ⟨Fodder.within hlevel, Codec.within_flat rfl (by omega), Fodder.within hlevel,
      Codec.within_option (by omega) h, Fodder.within hlevel, Location.within (by omega), trivial⟩

/-- The default values of parameters are three levels further inside. -/
theorem Parameters.within {ps : Parameters α} (hlevel : level + 6 ≤ limit)
    (h : ∀ x ∈ ps.fallbacks, e.Within limit (level + 3) x) :
    (Parameters.record e).codec.Within limit level ps := by
  have hitems : (Parameter.record e).codec.list.Within limit (level + 1) ps.items :=
    Codec.within_list (by omega) fun p hp =>
      Parameter.within (by omega) fun x hx => h x (List.mem_filterMap.mpr ⟨p, hp, hx⟩)
  exact Record.within (by omega)
    ⟨Fodder.within (by omega), hitems, Codec.within_flat rfl (by omega), Fodder.within (by omega),
      trivial⟩

/-- The same holds if there need not be any parameters. -/
theorem Parameters.within_option {ps? : Option (Parameters α)} (hlevel : level + 6 ≤ limit)
    (h : ∀ x ∈ Parameters.fallbacks? ps?, e.Within limit (level + 3) x) :
    (Parameters.record e).codec.option.Within limit level ps? := by
  refine Codec.within_option (by omega) fun ps hps => Parameters.within hlevel fun x hx => h x ?_
  exact List.mem_flatMap.mpr ⟨ps, Option.mem_toList.mpr hps, hx⟩

/-- The body of a binding is one level further inside, the default values are four. -/
theorem Binding.within {b : Binding α} (hlevel : level + 7 ≤ limit)
    (hbody : e.Within limit (level + 1) b.body)
    (hfallbacks : ∀ x ∈ Parameters.fallbacks? b.params, e.Within limit (level + 4) x) :
    (Binding.record e).codec.Within limit level b :=
  Record.within (by omega)
    ⟨Fodder.within (by omega), Codec.within_flat rfl (by omega), Fodder.within (by omega), hbody,
      Parameters.within_option (by omega) hfallbacks, Fodder.within (by omega),
      Location.within (by omega), trivial⟩

/-- The expressions of a member are one level further inside, the default values are four. -/
theorem Member.within {m : Member α} (hlevel : level + 7 ≤ limit)
    (hexpr1 : ∀ x ∈ m.expr1, e.Within limit (level + 1) x)
    (hfallbacks : ∀ x ∈ Parameters.fallbacks? m.method, e.Within limit (level + 4) x)
    (hexpr2 : ∀ x ∈ m.expr2, e.Within limit (level + 1) x)
    (hexpr3 : ∀ x ∈ m.expr3, e.Within limit (level + 1) x) :
    (Member.record e).codec.Within limit level m :=
  Record.within (by omega)
    ⟨Codec.within_flat rfl (by omega), Codec.within_flat rfl (by omega),
      Codec.within_flat rfl (by omega), Parameters.within_option (by omega) hfallbacks,
      Fodder.within (by omega), Codec.within_option (by omega) hexpr1,
      Codec.within_option (by omega) fun _ _ => Codec.within_flat rfl (by omega),
      Fodder.within (by omega), Fodder.within (by omega), Codec.within_option (by omega) hexpr2,
      Codec.within_option (by omega) hexpr3, Fodder.within (by omega), Location.within (by omega),
      trivial⟩

/-- A field of a lowered object takes one level. -/
theorem LoweredField.within {d : LoweredField α} (hlevel : level + 3 ≤ limit)
    (hname : e.Within limit (level + 1) d.name) (hbody : e.Within limit (level + 1) d.body) :
    (LoweredField.record e).codec.Within limit level d :=
  Record.within (by omega)
    ⟨Codec.within_flat rfl (by omega), hname, hbody, Codec.within_flat rfl (by omega),
      Location.within (by omega), trivial⟩

/-- A condition of a clause takes one level. -/
theorem Condition.within {c : Condition α} (hlevel : level + 4 ≤ limit)
    (h : e.Within limit (level + 1) c.expr) : (Condition.record e).codec.Within limit level c :=
  Record.within (by omega) ⟨Fodder.within hlevel, h, trivial⟩

/-- The innermost clause of a chain is part of it. -/
theorem Clauses.mem_links_of_innermost {cs : Clauses α} {link : Link α}
    (h : link ∈ cs.innermost.links level) : link ∈ cs.links level := by
  cases cs with
  | outermost clause => exact h
  | inside outer clause => exact List.mem_append_right _ h

/-- The links of a member are among those of all members. -/
theorem Member.mem_allLinks {ms : List (Member α)} {m : Member α} {link : Link α} (hm : m ∈ ms)
    (h : link ∈ m.links) : link ∈ allLinks ms := by
  rw [allLinks, List.mem_append, List.mem_flatMap, List.mem_flatMap]
  by_cases hlocal : m.isLocal = true
  · exact .inl ⟨m, List.mem_filter.mpr ⟨hm, hlocal⟩, h⟩
  · exact .inr ⟨m, List.mem_filter.mpr ⟨hm, by simpa using hlocal⟩, h⟩

/-- What a link leads to stays within the limit, and so would fodder in its place. -/
def Link.HasRoom (e : Codec α) (limit : Nat) (link : Link α) : Prop :=
  link.levels + 3 ≤ limit ∧ e.Within limit link.levels link.expr

/-- A chain of clauses stays within the limit if its expressions do. The fodder of a clause needs no
more room than its array. -/
theorem Clauses.within_codecUpTo {cs : Clauses α} (length : Nat)
    (h : ∀ link ∈ cs.links (level + 1), link.HasRoom e limit) :
    (Clauses.codecUpTo e length).Within limit level cs := by
  induction length generalizing level cs with
  | zero =>
    obtain ⟨hexpr, -⟩ := List.forall_mem_cons.mp fun link hlink =>
      h link (mem_links_of_innermost hlink)
    have hroom : level + 1 + 3 ≤ limit := hexpr.1
    exact Codec.within_flat rfl (by omega)
  | succ length ih =>
    obtain ⟨hexpr, hconditions⟩ := List.forall_mem_cons.mp fun link hlink =>
      h link (mem_links_of_innermost hlink)
    have hroom : level + 1 + 3 ≤ limit := hexpr.1
    have hlist : (Condition.record e).codec.list.Within limit (level + 1)
        cs.innermost.conditions := by
      refine Codec.within_list (by omega) fun c hc => ?_
      have hcondition := hconditions _ (List.mem_map_of_mem hc)
      exact Condition.within hcondition.1 hcondition.2
    have houter : ∀ outer ∈ cs.outer?,
        (Clauses.codecUpTo e length).Within limit (level + 1) outer := by
      intro outer houter
      cases cs with
      | outermost clause => cases houter
      | inside outer clause =>
        obtain rfl := Option.some.inj houter
        exact ih fun link hlink => h link (List.mem_append_left _ hlink)
    exact Record.within (by omega)
      ⟨Fodder.within hroom, Fodder.within hroom, Codec.within_flat rfl (by omega),
        Fodder.within hroom, hexpr.2, hlist, Codec.within_option (by omega) houter, trivial⟩

/-- The members of an object stay within the limit if their expressions do. -/
theorem Member.within_list {ms : List (Member α)} (hlimit : 11 ≤ limit)
    (hlinks : ∀ link ∈ Member.allLinks ms, link.HasRoom e limit)
    (hasides : ∀ aside ∈ ms.flatMap (·.asides), e.Within limit aside.levels aside.expr) :
    (Member.record e).codec.list.Within limit 3 ms := by
  refine Codec.within_list (by omega) fun m hm => ?_
  have hmember : ∀ link ∈ m.links, e.Within limit link.levels link.expr :=
    fun link hlink => (hlinks link (mem_allLinks hm hlink)).2
  have hname : ∀ x ∈ m.expr1, e.Within limit 5 x := by
    intro x hx
    by_cases hkind : m.hasNameExpr = true
    · refine hmember ⟨x, 5⟩ ?_
      simp [links, hkind, Option.mem_def.mp hx]
    · refine hasides ⟨x, 5⟩ (List.mem_flatMap.mpr ⟨m, hm, ?_⟩)
      simp [asides, hkind, Option.mem_def.mp hx]
  refine Member.within (by omega) hname (fun x hx => hmember ⟨x, 8⟩ ?_)
    (fun x hx => hmember ⟨x, 5⟩ ?_) (fun x hx => hmember ⟨x, 5⟩ ?_)
  · simp [links, hx]
  · simp [links, Option.mem_def.mp hx]
  · simp [links, Option.mem_def.mp hx]

/-! ## Forms -/

/-- A form takes a level for its tag. -/
theorem Record.within_writeTagged {r : Record ρ} {x : ρ} {tag : String}
    (h : r.codec.Within limit (level + 1) x) :
    level + (Variant.writeTagged tag (r.codec.write x)).nesting ≤ limit := by
  simp only [Codec.Within, Variant.writeTagged, Value.ofMembers, List.map_cons, List.map_nil,
    Value.nesting, Value.nestingMembers] at *
  omega

/-- A form stays within the limit if all expressions in it do. -/
theorem Form.within {form : Form α} (hlimit : 11 ≤ limit)
    (hlinks : ∀ link ∈ form.links, link.HasRoom e limit)
    (hasides : ∀ aside ∈ form.asides, e.Within limit aside.levels aside.expr) :
    (Form.codec e).Within limit 1 form := by
  have hfodder {f : Fodder} : Fodder.codec.Within limit 3 f := Fodder.within (by omega)
  have hflat {β : Type} {c : Codec β} {x : β} (h : (c.write x).nesting = 0) : c.Within limit 3 x :=
    Codec.within_flat h (by omega)
  have hname {x : Option String} : Codec.string.option.Within limit 3 x :=
    Codec.within_option (by omega) fun _ _ => hflat rfl
  have hexpr {x : α} {levels : Nat} (h : ⟨x, levels⟩ ∈ form.links) : e.Within limit levels x :=
    (hlinks _ h).2
  have hoption {x : Option α} (h : ∀ a ∈ x, ⟨a, 3⟩ ∈ form.links) : e.option.Within limit 3 x :=
    Codec.within_option (by omega) fun a ha => hexpr (h a ha)
  cases form with
  | apply a =>
    have harguments : (Arguments.record e).codec.Within limit 3 a.arguments :=
      Arguments.within (by omega) fun x hx => hexpr (by simp [links, hx])
    exact Record.within_writeTagged <| Record.within (by omega)
      ⟨hexpr (by simp [links]), hfodder, harguments, hflat rfl, hfodder, hfodder, hflat rfl,
        trivial⟩
  | applyBrace left right =>
    exact Record.within_writeTagged <| Record.within (by omega)
      ⟨hexpr (by simp [links, children, operands]), hexpr (by simp [links, children, operands]),
        trivial⟩
  | array a =>
    have helements : (Element.record e).codec.list.Within limit 3 a.elements :=
      Codec.within_list (by omega) fun x hx =>
        Element.within (by omega) (hexpr (List.mem_map_of_mem hx))
    exact Record.within_writeTagged <| Record.within (by omega)
      ⟨helements, hflat rfl, hfodder, trivial⟩
  | arrayComp a =>
    have hclauses : (Clauses.codec e).Within limit 3 a.clauses :=
      Clauses.within_codecUpTo _ fun link hlink => hlinks link (List.mem_cons_of_mem _ hlink)
    exact Record.within_writeTagged <| Record.within (by omega)
      ⟨hexpr (by simp [links]), hfodder, hflat rfl, hclauses, hfodder, trivial⟩
  | assert a =>
    exact Record.within_writeTagged <| Record.within (by omega)
      ⟨hexpr (by simp [links, children, operands]), hfodder,
        hoption fun x hx => by simp [links, children, operands, Option.mem_def.mp hx], hfodder,
        hexpr (by simp [links, children, operands]), trivial⟩
  | binary b =>
    exact Record.within_writeTagged <| Record.within (by omega)
      ⟨hexpr (by simp [links, children, operands]), hfodder, hflat rfl,
        hexpr (by simp [links, children, operands]), trivial⟩
  | conditional c =>
    exact Record.within_writeTagged <| Record.within (by omega)
      ⟨hexpr (by simp [links, children, operands]), hfodder,
        hexpr (by simp [links, children, operands]), hfodder,
        hoption fun x hx => by simp [links, children, operands, Option.mem_def.mp hx], trivial⟩
  | error message =>
    exact Record.within_writeTagged <| Record.within (by omega)
      ⟨hexpr (by simp [links, children, operands]), trivial⟩
  | unary op operand =>
    exact Record.within_writeTagged <| Record.within (by omega)
      ⟨hflat rfl, hexpr (by simp [links, children, operands]), trivial⟩
  | parens inner closeFodder =>
    exact Record.within_writeTagged <| Record.within (by omega)
      ⟨hexpr (by simp [links, children, operands]), hfodder, trivial⟩
  | inSuper i =>
    exact Record.within_writeTagged <| Record.within (by omega)
      ⟨hexpr (by simp [links, children, operands]), hfodder, hfodder, trivial⟩
  | function params body =>
    have hparams : (Parameters.record e).codec.Within limit 3 params :=
      Parameters.within (by omega) fun x hx => hexpr (by simp [links, hx])
    exact Record.within_writeTagged <| Record.within (by omega)
      ⟨hparams, hexpr (by simp [links]), trivial⟩
  | importCode file | importText file =>
    exact Record.within_writeTagged <| Record.within (by omega)
      ⟨hasides ⟨file, 3⟩ (List.mem_singleton_self _), trivial⟩
  | index i =>
    exact Record.within_writeTagged <| Record.within (by omega)
      ⟨hexpr (by simp [links, children, operands]), hfodder,
        hoption fun x hx => by simp [links, children, operands, Option.mem_def.mp hx], hfodder,
        hname, trivial⟩
  | slice s =>
    exact Record.within_writeTagged <| Record.within (by omega)
      ⟨hexpr (by simp [links, children, operands]), hfodder,
        hoption fun x hx => by simp [links, children, operands, Option.mem_def.mp hx], hfodder,
        hoption fun x hx => by simp [links, children, operands, Option.mem_def.mp hx], hfodder,
        hoption fun x hx => by simp [links, children, operands, Option.mem_def.mp hx], hfodder,
        trivial⟩
  | locals binds body =>
    have hbinds : (Binding.record e).codec.list.Within limit 3 binds := by
      refine Codec.within_list (by omega) fun b hb => ?_
      have hbind (link : Link α)
          (hlink : link ∈ (Parameters.fallbacks? b.params).map (⟨·, 8⟩) ++ [⟨b.body, 5⟩]) :
          link ∈ (Form.locals binds body).links :=
        List.mem_append_left _ (List.mem_flatMap.mpr ⟨b, hb, hlink⟩)
      exact Binding.within (by omega) (hexpr (hbind _ (by simp))) fun x hx =>
        hexpr (hbind _ (by simp [hx]))
    exact Record.within_writeTagged <| Record.within (by omega)
      ⟨hbinds, hexpr (by simp [links]), trivial⟩
  | object o =>
    exact Record.within_writeTagged <| Record.within (by omega)
      ⟨Member.within_list hlimit hlinks hasides, hflat rfl, hfodder, trivial⟩
  | loweredObject o =>
    have hasserts : e.list.Within limit 3 o.asserts :=
      Codec.within_list (by omega) fun x hx => hexpr (by simp [links, hx])
    have hfields : (LoweredField.record e).codec.list.Within limit 3 o.fields := by
      refine Codec.within_list (by omega) fun d hd => LoweredField.within (by omega) ?_ ?_
      · exact hexpr (List.mem_append_left _ (List.mem_append_left _ (List.mem_append_left _
          (List.mem_map_of_mem hd))))
      · exact hexpr (List.mem_append_left _ (List.mem_append_left _ (List.mem_append_right _
          (List.mem_map_of_mem hd))))
    have hlocals : (Binding.record e).codec.list.Within limit 3 o.locals := by
      refine Codec.within_list (by omega) fun b hb => Binding.within (by omega) ?_ fun x hx => ?_
      · exact hexpr (List.mem_append_left _ (List.mem_append_right _ (List.mem_map_of_mem hb)))
      · exact hasides ⟨x, 8⟩ (List.mem_flatMap.mpr ⟨b, hb, List.mem_map_of_mem hx⟩)
    exact Record.within_writeTagged <| Record.within (by omega)
      ⟨hasserts, hfields, hlocals, trivial⟩
  | objectComp o =>
    have hmembers : (Member.record e).codec.list.Within limit 3 o.members :=
      Member.within_list hlimit (fun link hlink => hlinks link (List.mem_append_left _ hlink))
        hasides
    have hclauses : (Clauses.codec e).Within limit 3 o.clauses :=
      Clauses.within_codecUpTo _ fun link hlink => hlinks link (List.mem_append_right _ hlink)
    exact Record.within_writeTagged <| Record.within (by omega)
      ⟨hmembers, hflat rfl, hclauses, hfodder, trivial⟩
  | superIndex s =>
    exact Record.within_writeTagged <| Record.within (by omega)
      ⟨hfodder, hoption fun x hx => by simp [links, children, operands, Option.mem_def.mp hx],
        hfodder, hname, trivial⟩
  | boolean value | number text | var name =>
    exact Record.within_writeTagged <| Record.within (by omega) ⟨hflat rfl, trivial⟩
  | string s =>
    exact Record.within_writeTagged <| Record.within (by omega)
      ⟨hflat rfl, hflat rfl, hflat rfl, hflat rfl, trivial⟩
  | dollar | null | self => exact Codec.within_flat rfl (by omega)

end Parts

/-! ## Expressions and trees -/

/-- From an expression at `level` a link stays within the limit: what it leads to does, for every
bound on its height, and a string literal three levels further inside would. -/
def Link.StaysWithin (limit level : Nat) (link : Link Expr) : Prop :=
  level + link.levels + 7 ≤ limit ∧
    ∀ bound, (Expr.codecUpTo bound).Within limit (level + link.levels) link.expr

namespace Expr

variable {e x : Expr} {sub : Codec Expr} {k limit : Nat}

/-- An expression stays within the limit if all expressions in it do. -/
theorem within_record (hlimit : 11 ≤ limit)
    (hlinks : ∀ link ∈ e.form.links, link.HasRoom sub limit)
    (hasides : ∀ aside ∈ e.form.asides, sub.Within limit aside.levels aside.expr) :
    (Expr.record sub).codec.Within limit 0 e :=
  Record.within (by omega)
    ⟨Location.within (by omega), Fodder.within (by omega), Form.within hlimit hlinks hasides,
      trivial⟩

/-- A string literal takes at most four levels. -/
theorem nesting_write_literal (h : x.literal?.isSome = true) (bound : Nat) :
    ((Expr.codecUpTo bound).write x).nesting ≤ 4 := by
  cases bound with
  | zero => exact Nat.zero_le 4
  | succ bound =>
    rw [literal?] at h
    split at h
    next s hform =>
      have hstring : (Form.codec (Expr.codecUpTo bound)).Within 4 1 x.form := by
        have hflat {β : Type} {c : Codec β} {y : β} (h : (c.write y).nesting = 0) :
            c.Within 4 3 y := Codec.within_flat h (by omega)
        rw [hform]
        exact Record.within_writeTagged <| Record.within (by omega)
          ⟨hflat rfl, hflat rfl, hflat rfl, hflat rfl, trivial⟩
      have hrecord : (Expr.record (Expr.codecUpTo bound)).codec.Within 4 0 x :=
        Record.within (by omega)
          ⟨Location.within (by omega), Fodder.within (by omega), hstring, trivial⟩
      rwa [Codec.Within, Nat.zero_add] at hrecord
    next => cases h

/-- A child has a level of the tree less, which leaves room for `k` levels of the document. -/
theorem levels_add_le {levels : Nat} {c : Expr} (hlevels : levels ≤ k) (hc : c ∈ e.children) :
    levels + k * c.depth ≤ k * e.depth :=
  calc levels + k * c.depth
      ≤ k + k * c.depth := Nat.add_le_add_right hlevels _
    _ = k * (c.depth + 1) := by rw [Nat.mul_succ, Nat.add_comm]
    _ ≤ k * e.depth := Nat.mul_le_mul_left k (depth_lt_of_mem_children hc)

/-- An expression stays within the limit if its children do, and if everything else that it holds is
a string literal. -/
theorem within_of_links {level : Nat} (hlevel : level + 11 ≤ limit)
    (hlinks : ∀ link ∈ e.form.links, link.StaysWithin limit level)
    (hasides : ∀ aside ∈ e.form.asides, aside.expr.literal?.isSome = true) (bound : Nat) :
    (Expr.codecUpTo bound).Within limit level e := by
  cases bound with
  | zero =>
    -- Where the bound is met, nothing is written.
    exact Nat.le_trans (Nat.le_add_right level 11) hlevel
  | succ bound =>
    have hrecord : (Expr.record (Expr.codecUpTo bound)).codec.Within (limit - level) 0 e := by
      refine within_record (by omega) (fun link hlink => ?_) fun aside haside => ?_
      · obtain ⟨hroom, hwithin⟩ := hlinks link hlink
        have hexpr := hwithin bound
        rw [Codec.Within] at hexpr
        exact ⟨by omega, by rw [Codec.Within]; omega⟩
      · have hliteral := nesting_write_literal (hasides aside haside) bound
        -- A literal far inside has a child beside it.
        rw [Codec.Within]
        rcases Form.levels_of_mem_asides haside with hlevels | ⟨link, hlink, hlevels⟩
        · omega
        · have hroom := (hlinks link hlink).1
          omega
    rw [Codec.Within] at hrecord
    rw [Codec.Within, Expr.codecUpTo]
    omega

/-- If every child is at most `k` levels further inside than its parent, and everything else that
expressions hold is a string literal, then an expression takes at most `k` levels of the document
for each level below it, and eleven more. -/
theorem nesting_write_le (hlinks : ∀ a, e.Reaches a → ∀ link ∈ a.form.links, link.levels ≤ k)
    (hasides : ∀ a, e.Reaches a → ∀ aside ∈ a.form.asides, aside.expr.literal?.isSome = true)
    (bound : Nat) : ((Expr.codecUpTo bound).write e).nesting ≤ k * e.depth + 11 := by
  induction e using induct_children generalizing bound with
  | h e ih =>
    have hwithin : (Expr.codecUpTo bound).Within (k * e.depth + 11) 0 e := by
      refine within_of_links (by omega) (fun link hlink => ?_) (hasides e (.refl e)) bound
      have hchild : link.expr ∈ e.children := by
        have hmem := List.mem_map_of_mem (f := (·.expr)) hlink
        rwa [Form.map_expr_links] at hmem
      have hroom := levels_add_le (hlinks e (.refl e) link hlink) hchild
      have hnesting := ih link.expr hchild (fun a ha => hlinks a (.child hchild ha))
        (fun a ha => hasides a (.child hchild ha))
      refine ⟨by omega, fun bound => ?_⟩
      have hle := hnesting bound
      rw [Codec.Within]
      omega
    rwa [Codec.Within, Nat.zero_add] at hwithin

end Expr

namespace Tree

/-- The document of a tree takes one level more than that of its root. -/
theorem nesting_write_le_of_root {n : Nat} {t : Tree}
    (h : ((Expr.codecUpTo t.root.height).write t.root).nesting ≤ n + 11) :
    (Tree.codec.write t).nesting ≤ n + 12 := by
  have hroot : Expr.codec.Within (n + 12) 1 t.root := by
    change 1 + ((Expr.codecUpTo t.root.height).write t.root).nesting ≤ _
    omega
  have htree : Tree.codec.Within (n + 12) 0 t :=
    Record.within (by omega)
      ⟨Codec.within_flat rfl (by omega), hroot, Fodder.within (by omega), trivial⟩
  rwa [Codec.Within, Nat.zero_add] at htree

/-- A tree is loaded from its documents if the limit on the nesting allows `k` levels for each level
of the tree and twelve more, where `k` bounds how far inside its parent a child is. -/
theorem load_of_levels {k maxDepth : Nat} {t : Tree} (hshape : t.checkShape = .ok ())
    (hlinks : ∀ a, t.root.Reaches a → ∀ link ∈ a.form.links, link.levels ≤ k)
    (hasides : ∀ a, t.root.Reaches a → ∀ aside ∈ a.form.asides, aside.expr.literal?.isSome = true)
    (hlimit : k * t.root.depth + 12 ≤ nestingLimit maxDepth) (file : String) :
    Tree.load maxDepth file (String.ofList t.compact) = .ok t ∧
      Tree.load maxDepth file (String.ofList t.pretty) = .ok t := by
  have hroot := Expr.nesting_write_le hlinks hasides t.root.height
  have hnesting := Nat.le_trans (nesting_write_le_of_root hroot) hlimit
  rw [load_of_tokens hshape t.tokens_compact, load_of_tokens hshape t.tokens_pretty,
    if_pos hnesting]
  exact ⟨rfl, rfl⟩

/-- A tree that passes the check of its shape and the check of its depth is loaded from its
documents if the limit on the nesting allows `k` levels for each level of the tree and twelve more,
where `k` bounds how far inside its parent a child is. Everything that expressions hold besides
their children must be string literals, as the files of imports are. -/
theorem load_of_checkDepth {k n maxDepth : Nat} {t : Tree} (hshape : t.checkShape = .ok ())
    (hdepth : t.root.checkDepth n = .ok ())
    (hlinks : ∀ a, t.root.Reaches a → ∀ link ∈ a.form.links, link.levels ≤ k)
    (hasides : ∀ a, t.root.Reaches a → ∀ aside ∈ a.form.asides, aside.expr.literal?.isSome = true)
    (hlimit : k * n + 12 ≤ nestingLimit maxDepth) (file : String) :
    Tree.load maxDepth file (String.ofList t.compact) = .ok t ∧
      Tree.load maxDepth file (String.ofList t.pretty) = .ok t := by
  have hle : t.root.depth ≤ n := Expr.checkDepth_eq_ok_iff.mp hdepth
  refine load_of_levels hshape hlinks hasides ?_ file
  calc k * t.root.depth + 12
      ≤ k * n + 12 := Nat.add_le_add_right (Nat.mul_le_mul_left k hle) 12
    _ ≤ nestingLimit maxDepth := hlimit

/-- A call with an import as its argument, which is six levels further inside, is loaded from both
of its documents. -/
theorem load_of_checkDepth_call :
    let t : Tree := ⟨.raw, Build.apply (Build.var "f") [Build.importCode "a.libsonnet"] [], []⟩
    t.checkShape = .ok () ∧ t.root.checkDepth 1 = .ok () ∧
      Tree.load 1 "a.json" (String.ofList t.compact) = .ok t ∧
      Tree.load 1 "a.json" (String.ofList t.pretty) = .ok t := by
  intro t
  have hshape : t.checkShape = .ok () := rfl
  have hdepth : t.root.checkDepth 1 = .ok () := rfl
  have hreaches {a : Expr} (ha : t.root.Reaches a) :
      a = t.root ∨ a = Build.var "f" ∨ a = Build.importCode "a.libsonnet" := by
    have hpreorder : t.root.preorder = [t.root, Build.var "f", Build.importCode "a.libsonnet"] :=
      rfl
    simpa [hpreorder] using Expr.mem_preorder_iff.mpr ha
  have hlinks : ∀ a, t.root.Reaches a → ∀ link ∈ a.form.links, link.levels ≤ 6 := by
    intro a ha
    rcases hreaches ha with rfl | rfl | rfl
    · simp [t, Build.apply, Build.element, Expr.ofForm, Form.links, Arguments.exprs]
    · exact fun link hlink => absurd hlink List.not_mem_nil
    · exact fun link hlink => absurd hlink List.not_mem_nil
  have hasides : ∀ a, t.root.Reaches a →
      ∀ aside ∈ a.form.asides, aside.expr.literal?.isSome = true := by
    intro a ha
    rcases hreaches ha with rfl | rfl | rfl
    · exact fun aside haside => absurd haside List.not_mem_nil
    · exact fun aside haside => absurd haside List.not_mem_nil
    · simp [Build.importCode, Build.string, Expr.ofForm, Form.asides, Expr.literal?]
  exact ⟨hshape, hdepth, load_of_checkDepth hshape hdepth hlinks hasides (by decide) "a.json"⟩

section

variable {n maxDepth : Nat} {t : Tree} (hshape : t.checkShape = .ok ())
  (hasides : ∀ a, t.root.Reaches a → ∀ aside ∈ a.form.asides, aside.expr.literal?.isSome = true)
  (hmax : (maxDepth + 1) * 6 ≤ maxCount)

include hshape hasides hmax

/-- Without arguments, default values and comprehensions no child is more than five levels inside
its parent. Then every tree within the limit on the depth is within the limit on the nesting. -/
theorem load_of_levels_le_five (hdepth : t.root.checkDepth maxDepth = .ok ())
    (hlinks : ∀ a, t.root.Reaches a → ∀ link ∈ a.form.links, link.levels ≤ 5) (file : String) :
    Tree.load maxDepth file (String.ofList t.compact) = .ok t ∧
      Tree.load maxDepth file (String.ofList t.pretty) = .ok t := by
  have hle : t.root.depth ≤ maxDepth := Expr.checkDepth_eq_ok_iff.mp hdepth
  refine load_of_levels hshape hlinks hasides ?_ file
  rw [nestingLimit_eq hmax]
  omega

/-- With arguments, and with default values of functions that are not bound to a name, children are
up to six levels inside their parents. Then a tree must have a level less than the limit on the
depth, except that up to nineteen levels are always allowed. -/
theorem load_of_levels_le_six (hdepth : t.root.checkDepth n = .ok ())
    (hn : n < maxDepth ∨ n ≤ 19)
    (hlinks : ∀ a, t.root.Reaches a → ∀ link ∈ a.form.links, link.levels ≤ 6) (file : String) :
    Tree.load maxDepth file (String.ofList t.compact) = .ok t ∧
      Tree.load maxDepth file (String.ofList t.pretty) = .ok t := by
  have hle : t.root.depth ≤ n := Expr.checkDepth_eq_ok_iff.mp hdepth
  refine load_of_levels hshape hlinks hasides ?_ file
  rw [nestingLimit_eq hmax]
  omega

end

end Tree

/-! ## Nested default values -/

/-- A local function with one parameter, whose default value is such an expression, and so on. -/
def nestedDefaults : Nat → Expr
  | 0 => Build.null
  | n + 1 =>
    .ofForm (.locals [⟨[], "f", [], Build.null,
      some ⟨[], [⟨[], "x", [], some (nestedDefaults n), [], .unset⟩], false, []⟩, [], .unset⟩]
      Build.null)

/-- The default value is a child, and so are the two bodies. -/
theorem children_nestedDefaults (n : Nat) :
    (nestedDefaults (n + 1)).children = [nestedDefaults n, Build.null, Build.null] := rfl

/-- Each default value takes a level of the tree. -/
theorem depth_nestedDefaults (n : Nat) : (nestedDefaults n).depth ≤ n := by
  have hnull : Build.null.depth = 0 := rfl
  induction n with
  | zero => exact hnull.le
  | succ n ih =>
    rw [Expr.depth_le_iff, children_nestedDefaults]
    intro c hc
    simp only [List.mem_cons, List.not_mem_nil, or_false, or_self] at hc
    rcases hc with rfl | rfl
    · omega
    · omega

/-- Local functions are within any shape. -/
theorem fits_nestedDefaults (n : Nat) : (nestedDefaults n).Fits .raw := by
  have hnull : Build.null.Fits .raw := Expr.fits_ofForm rfl fun c hc => absurd hc List.not_mem_nil
  induction n with
  | zero => exact hnull
  | succ n ih =>
    refine Expr.fits_ofForm rfl fun c hc => ?_
    have hmem : c ∈ [nestedDefaults n, Build.null, Build.null] := hc
    simp only [List.mem_cons, List.not_mem_nil, or_false, or_self] at hmem
    rcases hmem with rfl | rfl
    · exact ih
    · exact hnull

/-- The default value of a parameter of a local function is seven levels below the form, its body
four, and the expression after the function two. -/
theorem nesting_write_localFunction {e : Codec Expr} {name param : String}
    {fallback body a : Expr} :
    (Form.write e (.locals [⟨[], name, [], body,
      some ⟨[], [⟨[], param, [], some fallback, [], .unset⟩], false, []⟩, [], .unset⟩] a)).nesting =
      max (max (e.write body).nesting (max 2 (e.write fallback).nesting + 3) + 2)
        (e.write a).nesting + 2 := by
  have hlocation : (Location.codec.write .unset).nesting = 2 := rfl
  simp [Form.write, Variant.writeTagged, Form.localsRecord, Binding.record, Parameters.record,
    Parameter.record, Record.codec, Fields.items, Fields.switch, Fields.fodder, Fields.location,
    Fields.withDefault, Fields.required, Fields.optional, Fields.write, Codec.option, Codec.list,
    Codec.boolean, Codec.string, Fodder.codec, Value.ofMembers, Value.ofList, Value.ofString,
    Value.nesting, Value.nestingMembers, Value.nestingItems, hlocation]
  omega

/-- Each default value takes eight levels of the document. -/
theorem nesting_write_nestedDefaults {n bound : Nat} (h : n < bound) :
    ((Expr.codecUpTo bound).write (nestedDefaults n)).nesting = 8 * n + 3 := by
  induction n generalizing bound with
  | zero =>
    obtain ⟨bound, rfl⟩ := Nat.exists_eq_succ_of_ne_zero (Nat.ne_of_gt h)
    rfl
  | succ n ih =>
    obtain ⟨bound, rfl⟩ := Nat.exists_eq_add_of_le' h
    have hnull : ((Expr.codecUpTo (bound + n + 1)).write Build.null).nesting = 3 := rfl
    have hfallback : ((Expr.codecUpTo (bound + n + 1)).write (nestedDefaults n)).nesting =
        8 * n + 3 := ih (by omega)
    rw [nestedDefaults, show bound + (n + 1).succ = bound + n + 1 + 1 by omega,
      nesting_write_ofForm, nesting_write_localFunction, hnull, hfallback]
    omega

/-- There are as many levels as default values, and one for the innermost. -/
theorem lt_height_nestedDefaults (n : Nat) : n < (nestedDefaults n).height := by
  induction n with
  | zero =>
    rw [Expr.height_eq]
    exact Nat.succ_pos _
  | succ n ih =>
    have hchild : nestedDefaults n ∈ (nestedDefaults (n + 1)).children := by
      rw [children_nestedDefaults]
      exact List.mem_cons_self
    have hlt := Expr.height_lt_of_mem_parts (Form.mem_parts_of_mem_children hchild)
    omega

namespace Tree

/-- With every limit from sixteen to the greatest one that commands take, as many nested default
values pass both checks, but their document is refused for its nesting. -/
theorem load_nestedDefaults_refused {limit : Nat} (hlow : 16 ≤ limit)
    (hhigh : limit ≤ maxDepthLimit) (file : String) :
    let t : Tree := ⟨.raw, nestedDefaults limit, []⟩
    t.checkShape = .ok () ∧ t.root.checkDepth limit = .ok () ∧
      Tree.load limit file (String.ofList t.compact) =
        .error (.tooDeep file (8 * limit + 4) (nestingLimit limit)) := by
  intro t
  have hlimit := nestingLimit_of_le_maxDepthLimit hhigh
  have hnesting : (Tree.codec.write t).nesting = 8 * limit + 4 := by
    rw [nesting_write, nesting_write_nestedDefaults (lt_height_nestedDefaults limit)]
    omega
  have hshape : t.checkShape = .ok () := checkShape_eq_ok_iff.mpr (fits_nestedDefaults limit)
  refine ⟨hshape, Expr.checkDepth_of_le (depth_nestedDefaults limit), ?_⟩
  rw [load_of_tokens hshape t.tokens_compact, if_neg (by omega), hnesting]

/-- Sixteen nested default values pass the check of the depth with a limit of sixteen levels, but
their document is nested more deeply than that limit allows. -/
theorem load_nestedDefaults :
    let t : Tree := ⟨.raw, nestedDefaults 16, []⟩
    t.checkShape = .ok () ∧ t.root.checkDepth 16 = .ok () ∧
      Tree.load 16 "a.json" (String.ofList t.compact) = .error (.tooDeep "a.json" 132 128) :=
  load_nestedDefaults_refused (by decide) (by decide) "a.json"

end Tree

end JsonnetTree
