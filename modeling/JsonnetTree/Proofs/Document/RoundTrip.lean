import JsonnetTree.Document.Load
import JsonnetTree.Proofs.Document.Height
import JsonnetTree.Proofs.Json.Nesting

/-!
# Round trip of tree documents

A tree is read back from its own document. The proof follows the schema: data are read back if
the expressions in them are, and so expressions are read back by induction. The bound on the
height under which a reader works does no harm, because no expression is higher than the value
it is written as is nested.
-/

namespace JsonnetTree

open Json

variable {α : Type}

/-! ## Data that hold expressions -/

/-- Data are read back if all expressions in them have a property. -/
structure Codec.SolidIf (p : α → Prop) ⦃β : Type⦄ (c c' : Codec β) (exprs : β → List α) :
    Prop where
  solid : ∀ x, (∀ a ∈ exprs x, p a) → c.Solid c' x

section

variable {p : α → Prop}

/-- The value of a field is read back. -/
theorem Field.Related.readsBack {β : Type} {field field' : Field β} {exprs : β → List α}
    (h : field.Related (Codec.SolidIf p) field' exprs) {b : β} (hb : ∀ a ∈ exprs b, p a) :
    field.name = field'.name ∧ field.codec.ReadsBack field'.codec b := by
  cases h with
  | required hc => exact ⟨rfl, (hc.solid b hb).toReadsBack⟩
  | withDefault hc _ => exact ⟨rfl, (hc.solid b hb).toReadsBack⟩
  | optional hc =>
    refine ⟨rfl, Codec.option_readsBack fun d hd => hc.solid d fun a ha => hb a ?_⟩
    cases hd
    simpa using ha

/-- A row is read back. -/
theorem Fields.Related.readsBack {ts : List Type} {fields fields' : Fields ts}
    {exprs : Row ts → List α} (h : fields.Related (Codec.SolidIf p) fields' exprs)
    {row : Row ts} (hrow : ∀ a ∈ exprs row, p a) : fields.ReadsBack fields' row := by
  induction h with
  | nil => exact trivial
  | cons hfield _ ih =>
    obtain ⟨hname, hvalue⟩ := hfield.readsBack fun a ha => hrow a (List.mem_append_left _ ha)
    exact ⟨hname, hvalue, ih fun a ha => hrow a (List.mem_append_right _ ha)⟩

end

/-- Lists and records are read back if the expressions in them are. -/
def SchemaRelation.solidIf (p : α → Prop) : SchemaRelation α where
  Rel _ := Codec.SolidIf p
  weaken h := h
  constant h := ⟨fun b _ => h b⟩
  list h := by
    refine ⟨fun bs hbs => Codec.list_solid fun b hb => (h.solid b fun a ha => hbs a ?_).toReadsBack⟩
    exact List.mem_flatMap.mpr ⟨b, hb, ha⟩
  record hfields hnames hrow _ hexprs := by
    refine ⟨fun x hx => Record.solid hnames (hrow x) (hfields.readsBack fun a ha => hx a ?_)⟩
    exact (hexprs x a).mpr ha

/-! ## Clauses -/

section

variable {p : α → Prop} {e e' : Codec α}

/-- A clause is read back together with the clauses around it. -/
theorem Clauses.record_solid (h : Codec.SolidIf p e e' (fun a => [a]))
    {outer outer' : Codec (Clauses α)} {cs : Clauses α}
    (houter : ∀ os ∈ cs.outer?, outer.Solid outer' os) (hcs : ∀ a ∈ cs.innermost.exprs, p a) :
    (Clauses.record e outer).codec.Solid (Clauses.record e' outer').codec cs := by
  have hexpr : e.Solid e' cs.innermost.expr :=
    h.solid _ fun a ha => hcs a (by simp_all [Clause.exprs])
  have hconditions : ∀ c ∈ cs.innermost.conditions,
      (Condition.record e).codec.Solid (Condition.record e').codec c := by
    intro c hc
    refine ((SchemaRelation.solidIf p).condition h).solid c fun a ha => hcs a ?_
    obtain rfl := List.mem_singleton.mp ha
    exact List.mem_cons_of_mem _ (List.mem_map_of_mem hc)
  refine Record.solid (by simp) (by cases cs <;> rfl) ?_
  exact ⟨rfl, (Fodder.codec_solid _).toReadsBack, rfl, (Fodder.codec_solid _).toReadsBack, rfl,
    (Codec.string_solid _).toReadsBack, rfl, (Fodder.codec_solid _).toReadsBack, rfl,
    hexpr.toReadsBack, rfl, (Codec.list_solid fun c hc => (hconditions c hc).toReadsBack).toReadsBack,
    rfl, Codec.option_readsBack houter, trivial⟩

/-- Clauses are read back under any bounds that their number keeps. -/
theorem Clauses.codecUpTo_solid (h : Codec.SolidIf p e e' (fun a => [a])) {m n : Nat}
    {cs : Clauses α} (hm : cs.length ≤ m) (hn : cs.length ≤ n) (hcs : ∀ a ∈ cs.exprs, p a) :
    (Clauses.codecUpTo e m).Solid (Clauses.codecUpTo e' n) cs := by
  induction cs generalizing m n with
  | outermost clause =>
    obtain ⟨m, rfl⟩ := Nat.exists_eq_add_of_le' hm
    obtain ⟨n, rfl⟩ := Nat.exists_eq_add_of_le' hn
    exact Clauses.record_solid h nofun hcs
  | inside outer clause ih =>
    obtain ⟨m, rfl⟩ := Nat.exists_eq_add_of_le' (Nat.le_of_add_left_le hm)
    obtain ⟨n, rfl⟩ := Nat.exists_eq_add_of_le' (Nat.le_of_add_left_le hn)
    refine Clauses.record_solid h ?_ fun a ha => hcs a (List.mem_append_right _ ha)
    intro os hos
    cases hos
    exact ih (Nat.le_of_succ_le_succ hm) (Nat.le_of_succ_le_succ hn)
      fun a ha => hcs a (List.mem_append_left _ ha)

/-- Clauses that are read are no more than the value is nested. -/
theorem Clauses.length_le_nesting {n : Nat} {v : Value} {cs : Clauses α}
    (h : (Clauses.codecUpTo e n).read v = .ok cs) : cs.length ≤ v.nesting := by
  induction n generalizing v cs with
  | zero => cases h
  | succ n ih =>
    have hpos := Record.one_le_nesting h
    obtain ⟨⟨_, _, _, _, _, _, outer?, _⟩, rfl, hfrom⟩ := Record.read_eq_ok h
    cases outer? with
    | none => exact hpos
    | some outer =>
      obtain ⟨w, hw, hread⟩ | hfrom | hfrom := hfrom.2.2.2.2.2.2.1
      · exact Nat.succ_le_of_lt (Nat.lt_of_le_of_lt (ih (Codec.option_read_eq_ok hread)) hw)
      · cases hfrom
      · cases hfrom

/-- Clauses of any number are read back. -/
theorem Clauses.solidIf_codec (h : Codec.SolidIf p e e' (fun a => [a])) :
    Codec.SolidIf p (Clauses.codec e) (Clauses.codec e') Clauses.exprs := by
  refine ⟨fun cs hcs => ?_⟩
  have hsame := Clauses.codecUpTo_solid h (Nat.le_refl _) (Nat.le_refl _) hcs
  have hlength := Clauses.length_le_nesting hsame.read_write
  have hsolid := Clauses.codecUpTo_solid h (Nat.le_refl _) (Nat.le_succ_of_le hlength) hcs
  exact ⟨⟨hsolid.read_write, hsolid.proper⟩, hsolid.write_ne_null⟩

end

/-! ## Forms and expressions -/

section

variable {p : α → Prop} {e e' : Codec α}

/-- A form with a payload is read back if its payload is. -/
theorem Form.solid_writeTagged {ρ : Type} {r r' : Record ρ} {tag : String} {make : ρ → Form α}
    {x : ρ} {form : Form α} (h : r.codec.Solid r'.codec x)
    (hwrite : Form.write e form = Variant.writeTagged tag (r.codec.write x))
    (hfind : (Form.variants e').find? (·.tag == tag) = some (r'.variant tag make))
    (hform : make x = form) : (Form.codec e).Solid (Form.codec e') form := by
  have hread : Variant.read (Form.variants e') (Variant.writeTagged tag (r.codec.write x)) =
      .ok form := by
    rw [Variant.read_writeTagged hfind, h.read_write, ← hform]
    rfl
  have hproper : (Variant.writeTagged tag (r.codec.write x)).Proper := by
    refine .object fun m hm => ?_
    obtain rfl := List.mem_singleton.mp hm
    exact h.proper
  refine ⟨⟨?_, ?_⟩, ?_⟩
  · simpa only [Form.codec, hwrite] using hread
  · simpa only [Form.codec, hwrite] using hproper
  · simp only [Form.codec, hwrite]
    nofun

/-- A form without a payload is read back from its tag. -/
theorem Form.solid_ofString {tag : String} {form : Form α}
    (hfind : (Form.variants e').find? (·.tag == tag) = some ⟨tag, .absent form⟩)
    (hwrite : Form.write e form = .ofString tag) : (Form.codec e).Solid (Form.codec e') form := by
  refine ⟨⟨?_, ?_⟩, ?_⟩
  · simpa only [Form.codec, hwrite] using Variant.read_ofString hfind
  · simpa only [Form.codec, hwrite] using Value.Proper.string tag
  · simp only [Form.codec, hwrite]
    nofun

/-- A payload of one field is read back if the field is. -/
theorem Form.single_solid {β : Type} {c c' : Codec β} {name field : String} {b : β}
    (h : c.Solid c' b) :
    (Form.singleRecord c name field).codec.Solid (Form.singleRecord c' name field).codec b :=
  Record.solid (by simp) rfl ⟨rfl, h.toReadsBack, trivial⟩

/-- A form is read back if the expressions in it are. -/
theorem Form.solidIf_codec (h : Codec.SolidIf p e e' (fun a => [a])) :
    Codec.SolidIf p (Form.codec e) (Form.codec e') Form.parts := by
  let L := SchemaRelation.solidIf p
  have hclauses := Clauses.solidIf_codec h
  refine ⟨fun form hform => ?_⟩
  cases form with
  | apply a => exact Form.solid_writeTagged ((L.apply h).solid a hform) rfl rfl rfl
  | applyBrace left right =>
    exact Form.solid_writeTagged ((L.applyBrace h).solid (left, right) hform) rfl rfl rfl
  | array a => exact Form.solid_writeTagged ((L.arrayLiteral h).solid a hform) rfl rfl rfl
  | arrayComp a => exact Form.solid_writeTagged ((L.arrayComp h hclauses).solid a hform) rfl rfl rfl
  | assert a => exact Form.solid_writeTagged ((L.assert h).solid a hform) rfl rfl rfl
  | binary b => exact Form.solid_writeTagged ((L.binary h).solid b hform) rfl rfl rfl
  | conditional c => exact Form.solid_writeTagged ((L.conditional h).solid c hform) rfl rfl rfl
  | dollar => exact Form.solid_ofString rfl rfl
  | error message => exact Form.solid_writeTagged ((L.single h).solid message hform) rfl rfl rfl
  | function params body =>
    exact Form.solid_writeTagged ((L.function h).solid (params, body) hform) rfl rfl rfl
  | importCode file => exact Form.solid_writeTagged ((L.single h).solid file hform) rfl rfl rfl
  | importText file => exact Form.solid_writeTagged ((L.single h).solid file hform) rfl rfl rfl
  | index i => exact Form.solid_writeTagged ((L.index h).solid i hform) rfl rfl rfl
  | slice s => exact Form.solid_writeTagged ((L.slice h).solid s hform) rfl rfl rfl
  | inSuper i => exact Form.solid_writeTagged ((L.inSuper h).solid i hform) rfl rfl rfl
  | locals binds body =>
    exact Form.solid_writeTagged ((L.locals h).solid (binds, body) hform) rfl rfl rfl
  | boolean value =>
    exact Form.solid_writeTagged (Form.single_solid (Codec.boolean_solid value)) rfl rfl rfl
  | null => exact Form.solid_ofString rfl rfl
  | number text =>
    exact Form.solid_writeTagged (Form.single_solid (Codec.string_solid text)) rfl rfl rfl
  | string s => exact Form.solid_writeTagged s.codec_solid rfl rfl rfl
  | object o => exact Form.solid_writeTagged ((L.objectLiteral h).solid o hform) rfl rfl rfl
  | loweredObject o => exact Form.solid_writeTagged ((L.loweredObject h).solid o hform) rfl rfl rfl
  | objectComp o => exact Form.solid_writeTagged ((L.objectComp h hclauses).solid o hform) rfl rfl rfl
  | parens inner closeFodder =>
    exact Form.solid_writeTagged ((L.parens h).solid (inner, closeFodder) hform) rfl rfl rfl
  | self => exact Form.solid_ofString rfl rfl
  | superIndex s => exact Form.solid_writeTagged ((L.superIndex h).solid s hform) rfl rfl rfl
  | unary op operand =>
    exact Form.solid_writeTagged ((L.unary h).solid (op, operand) hform) rfl rfl rfl
  | var name => exact Form.solid_writeTagged (Form.single_solid (Codec.string_solid name)) rfl rfl rfl

end

/-- Expressions are read back under any bounds that their height keeps. -/
theorem Expr.codecUpTo_solid {m n : Nat} {e : Expr} (hm : e.height ≤ m) (hn : e.height ≤ n) :
    (Expr.codecUpTo m).Solid (Expr.codecUpTo n) e := by
  induction m generalizing n e with
  | zero => simp [e.height_eq] at hm
  | succ m ih =>
    cases n with
    | zero => simp [e.height_eq] at hn
    | succ n =>
      let L := SchemaRelation.solidIf fun a : Expr => a.height ≤ m ∧ a.height ≤ n
      have hsub : L.Rel 0 (Expr.codecUpTo m) (Expr.codecUpTo n) (fun a => [a]) :=
        ⟨fun a ha => ih (ha a (by simp)).1 (ha a (by simp)).2⟩
      have hform : L.Rel 0 (Form.codec (Expr.codecUpTo m)) (Form.codec (Expr.codecUpTo n))
          Form.parts := Form.solidIf_codec hsub
      refine (L.expr hform).solid e fun part hpart => ?_
      have hlt := Expr.height_lt_of_mem_parts hpart
      exact ⟨by omega, by omega⟩

/-- Expressions of any height are read back. -/
theorem Expr.codec_solid (e : Expr) : Expr.codec.Solid Expr.codec e := by
  have hsame := Expr.codecUpTo_solid (Nat.le_refl e.height) (Nat.le_refl e.height)
  have hheight := Expr.three_mul_height_le hsame.read_write
  have hsolid : (Expr.codecUpTo e.height).Solid
      (Expr.codecUpTo (((Expr.codecUpTo e.height).write e).nesting + 1)) e :=
    Expr.codecUpTo_solid (Nat.le_refl e.height) (by omega)
  exact ⟨⟨hsolid.read_write, hsolid.proper⟩, hsolid.write_ne_null⟩

/-! ## Trees -/

namespace Tree

/-- Trees are read back. -/
theorem codec_solid (t : Tree) : Tree.codec.Solid Tree.codec t :=
  Record.solid (by simp) rfl
    ⟨rfl, t.shape.codec_solid.toReadsBack, rfl, t.root.codec_solid.toReadsBack, rfl,
      (Fodder.codec_solid t.finalFodder).toReadsBack, trivial⟩

/-- A tree is read back from any text that holds the tokens of its document. -/
theorem ofChars_of_tokens {t : Tree} {text : List Char}
    (h : tokens text = (Tree.codec.write t).toTokens) : Tree.ofChars text = .ok t := by
  have hreading := ofChars_eq_of_tokens t.codec_solid.proper h
  simp only [Tree.ofChars, hreading, t.codec_solid.read_write, bind, Except.bind]
  rfl

/-- A text that holds the tokens of the document of a tree is loaded as that tree if the document
keeps the limit, and is refused for its nesting otherwise. -/
theorem load_of_tokens {t : Tree} {text : List Char} (hshape : t.checkShape = .ok ())
    (h : tokens text = (Tree.codec.write t).toTokens) (maxDepth : Nat) (file : String) :
    Tree.load maxDepth file (String.ofList text) =
      if (Tree.codec.write t).nesting ≤ nestingLimit maxDepth then .ok t
      else .error (.tooDeep file (Tree.codec.write t).nesting (nestingLimit maxDepth)) := by
  have hdepth : bracketDepth text = (Tree.codec.write t).nesting :=
    t.codec_solid.proper.bracketDepth_eq h
  have hread := ofChars_of_tokens h
  rw [Tree.load, String.toList_ofList, hdepth]
  by_cases hlimit : (Tree.codec.write t).nesting ≤ nestingLimit maxDepth
  · rw [if_pos hlimit, if_neg (Nat.not_lt.mpr hlimit), hread]
    simp only [Except.mapError, bind, Except.bind, hshape]
    rfl
  · rw [if_neg hlimit, if_pos (Nat.lt_of_not_le hlimit)]
    rfl

/-- The tokens of the compact document. -/
theorem tokens_compact (t : Tree) : tokens t.compact = (Tree.codec.write t).toTokens :=
  Json.tokens_compact t.codec_solid.proper

/-- The tokens of the document that is laid out in lines. -/
theorem tokens_pretty (t : Tree) : tokens t.pretty = (Tree.codec.write t).toTokens :=
  Json.tokens_pretty t.codec_solid.proper

/-- A tree of its declared shape is loaded from its own document, compact or pretty, as long as the
brackets of the text keep the limit: every node, location, fodder element, option and string of
the tree is read back. -/
theorem load_document (t : Tree) (hshape : t.checkShape = .ok ()) (maxDepth : Nat)
    (file : String) :
    (bracketDepth t.compact ≤ nestingLimit maxDepth →
        Tree.load maxDepth file (String.ofList t.compact) = .ok t) ∧
      (bracketDepth t.pretty ≤ nestingLimit maxDepth →
        Tree.load maxDepth file (String.ofList t.pretty) = .ok t) := by
  have hproper := t.codec_solid.proper
  refine ⟨fun hdepth => ?_, fun hdepth => ?_⟩
  · rw [hproper.bracketDepth_eq t.tokens_compact] at hdepth
    rw [load_of_tokens hshape t.tokens_compact, if_pos hdepth]
  · rw [hproper.bracketDepth_eq t.tokens_pretty] at hdepth
    rw [load_of_tokens hshape t.tokens_pretty, if_pos hdepth]

/-- A tree with a comment, quotes, a backslash and a control character in its strings is loaded from
both of its documents. -/
theorem load_document_quoted :
    let t : Tree := ⟨.raw, ⟨⟨"a.jsonnet", ⟨1, 1⟩, ⟨1, 8⟩⟩, [⟨.paragraph, 1, 2, ["# \"é\" \\"]⟩],
      .unary .minus (.ofForm (.string ⟨"\t\"\\ü", .double, "", ""⟩))⟩, []⟩
    Tree.load 1 "a.json" (String.ofList t.compact) = .ok t ∧
      Tree.load 1 "a.json" (String.ofList t.pretty) = .ok t := by
  intro t
  have hproper := t.codec_solid.proper
  have hnesting : (Tree.codec.write t).nesting ≤ nestingLimit 1 := by decide
  obtain ⟨hcompact, hpretty⟩ := load_document t rfl 1 "a.json"
  rw [hproper.bracketDepth_eq t.tokens_compact] at hcompact
  rw [hproper.bracketDepth_eq t.tokens_pretty] at hpretty
  exact ⟨hcompact hnesting, hpretty hnesting⟩

end Tree

end JsonnetTree
