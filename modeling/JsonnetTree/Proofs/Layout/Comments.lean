import JsonnetTree.Expr.Build
import JsonnetTree.Proofs.Layout.Notes
import Mathlib.Algebra.Ring.Nat
import Mathlib.Data.List.Count

/-!
# Comments are kept

A tree is tidy if it holds no fodder and no expression that the printer has no place for. The
comments in the text of a tidy tree are the comments stored in the tree, each as often as it is
stored. What a form stores is said by `Form.fodders` and `Form.parts`, and what the printer shows
of it by `Form.items`; for a tidy form the two agree up to order (`Form.IsTidy.balanced_items`).
-/

namespace JsonnetTree

variable {α : Type}

/-! ## Stored comments -/

/-- The comments stored in fodder. -/
def Fodder.comments (f : Fodder) : List String :=
  f.flatMap (·.comment)

/-- All comments stored in an expression, in its own fodder and below. -/
def Expr.comments : Expr → List String :=
  Expr.para fun e form =>
    Fodder.comments e.fodder ++ e.form.fodders.flatMap Fodder.comments ++
      form.parts.flatMap (·.2)

/-- The comments of an expression are those of its fodder, of its form and of its parts. -/
theorem Expr.comments_eq (e : Expr) :
    e.comments = Fodder.comments e.fodder ++ e.form.fodders.flatMap Fodder.comments ++
      e.form.parts.flatMap comments := by
  rw [comments, para_eq]
  simp [List.flatMap_map]

/-- All comments stored in a tree. -/
def Tree.comments (t : Tree) : List String :=
  t.root.comments ++ Fodder.comments t.finalFodder

/-! ## Tidy trees -/

/-- Fodder outside paragraphs holds one comment at most in each element. -/
def Fodder.IsSlim (f : Fodder) : Prop :=
  ∀ element ∈ f, element.kind ≠ .paragraph → element.comment.length ≤ 1

instance (f : Fodder) : Decidable (Fodder.IsSlim f) :=
  inferInstanceAs (Decidable (∀ element ∈ f, element.kind ≠ .paragraph → element.comment.length ≤ 1))

/-- A parameter without a default value has no fodder before an equals sign. -/
def Parameters.IsTidy (ps : Parameters α) : Prop :=
  ∀ p ∈ ps.items, p.fallback = none → p.eqFodder = []

/-- A member holds only the expressions and the fodder that its kind has a place for. -/
def Member.IsTidy (m : Member α) : Prop :=
  (∀ ps ∈ m.method, ps.IsTidy) ∧
    match m.kind with
    | .localBind => m.expr1 = none ∧ m.expr3 = none
    | .fieldId => m.expr1 = none ∧ m.expr3 = none ∧ m.fodder2 = []
    | .fieldStr => m.expr3 = none ∧ m.fodder1 = [] ∧ m.fodder2 = []
    | .fieldExpr => m.expr3 = none
    | .assert =>
      m.expr1 = none ∧ m.method = none ∧ m.fodder2 = [] ∧ (m.expr3 = none → m.opFodder = [])

/-- A form is as it is written: it is no lowered object, it has no fodder before a token that is
missing, and it does not give a name twice. -/
def Form.IsTidy : Form α → Prop
  | .apply a => a.tailStrict = false → a.tailStrictFodder = []
  | .assert a => a.message = none → a.colonFodder = []
  | .conditional c => c.no = none → c.elseFodder = []
  | .function params _ => params.IsTidy
  | .index i => i.id = none ∨ i.index = none
  | .locals binds _ => ∀ b ∈ binds, ∀ ps ∈ b.params, ps.IsTidy
  | .object o => ∀ m ∈ o.members, m.IsTidy
  | .loweredObject _ => False
  | .objectComp o => ∀ m ∈ o.members, m.IsTidy
  | .superIndex s => s.id = none ∨ s.index = none
  | _ => True

/-- An expression is tidy throughout. One that starts with a subexpression leaves the fodder in
front to that subexpression. -/
inductive Expr.IsTidy : Expr → Prop
  | intro {e : Expr} (hform : e.form.IsTidy) (hfront : e.form.leftmost?.isSome → e.fodder = [])
      (hslim : ∀ f ∈ e.fodder :: e.form.fodders, Fodder.IsSlim f)
      (hparts : ∀ part ∈ e.form.parts, Expr.IsTidy part) : Expr.IsTidy e

/-- A tree is tidy if its root is, and the fodder at its end is slim. -/
structure Tree.IsTidy (t : Tree) : Prop where
  root : t.root.IsTidy
  finalFodder : Fodder.IsSlim t.finalFodder

/-! ## What is stored is shown -/

/-- Items weigh as much as fodder and subexpressions do together. -/
def Balanced (w : Item α → Nat) (items : List (Item α)) (fodders : List Fodder)
    (parts : List α) : Prop :=
  (items.map w).sum =
    (fodders.map fun f => w (.fodder f)).sum + (parts.map fun a => w (.sub a)).sum

section Balance

variable {w : Item α → Nat}

/-- Balanced lists can be put together, whatever their order. -/
theorem Balanced.append {items items' : List (Item α)} {fodders fodders' : List Fodder}
    {parts parts' : List α} (h : Balanced w items fodders parts)
    (h' : Balanced w items' fodders' parts') :
    Balanced w (items ++ items') (fodders ++ fodders') (parts ++ parts') := by
  simp only [Balanced, List.map_append, List.sum_append] at h h' ⊢
  omega

/-- What is balanced for each element of a list is balanced for the list. -/
theorem Balanced.flatMap {β : Type} {l : List β} {items : β → List (Item α)}
    {fodders : β → List Fodder} {parts : β → List α}
    (h : ∀ b ∈ l, Balanced w (items b) (fodders b) (parts b)) :
    Balanced w (l.flatMap items) (l.flatMap fodders) (l.flatMap parts) := by
  induction l with
  | nil => rfl
  | cons b rest ih =>
    have hb := h b List.mem_cons_self
    have hrest := ih fun b hb => h b (List.mem_cons_of_mem _ hb)
    simpa only [List.flatMap_cons] using hb.append hrest

/-- List elements show their fodder and their expressions. -/
theorem Element.balanced_items (es : List (Element α)) :
    Balanced w (es.flatMap (·.items)) (es.map (·.commaFodder)) (es.map (·.expr)) := by
  rw [List.map_eq_flatMap, List.map_eq_flatMap]
  refine Balanced.flatMap fun e _ => ?_
  simp [Balanced, items]
  omega

/-- An argument passed by name shows its fodder and its value. -/
theorem NamedArgument.balanced_items (a : NamedArgument α) :
    Balanced w a.items a.fodders [a.value] := by
  simp [Balanced, items, fodders]
  omega

/-- Arguments show all that they hold. -/
theorem Arguments.balanced_items (a : Arguments α) : Balanced w a.items a.fodders a.exprs := by
  have hnamed : Balanced w (a.named.flatMap (·.items)) (a.named.flatMap (·.fodders))
      (a.named.map (·.value)) := by
    rw [List.map_eq_flatMap]
    exact Balanced.flatMap fun b _ => b.balanced_items
  exact (Element.balanced_items a.positional).append hnamed

/-- The fodder before an equals sign that is missing is empty, and weighs nothing. -/
theorem Parameters.IsTidy.balanced_listItems (hnil : w (.fodder []) = 0) {ps : Parameters α}
    (h : ps.IsTidy) : Balanced w ps.listItems ps.fodders ps.fallbacks := by
  have hitems : Balanced w (ps.items.flatMap (·.items)) (ps.items.flatMap (·.fodders))
      (ps.items.filterMap (·.fallback)) := by
    rw [List.filterMap_eq_flatMap_toList]
    refine Balanced.flatMap fun p hp => ?_
    cases hfallback : p.fallback with
    | none =>
      have heq : p.eqFodder = [] := h p hp hfallback
      simp [Balanced, Parameter.items, Parameter.fodders, hfallback, heq, hnil]
    | some value =>
      simp [Balanced, Parameter.items, Parameter.fodders, hfallback]
      omega
  simp [Balanced, listItems, fodders, fallbacks] at hitems ⊢
  omega

/-- A tidy parameter list shows all that it holds, and a missing one holds nothing. -/
theorem Parameters.balanced_listItems? (hnil : w (.fodder []) = 0)
    {ps? : Option (Parameters α)} (h : ∀ ps ∈ ps?, ps.IsTidy) :
    Balanced w (Parameters.listItems? ps?) (Parameters.fodders? ps?)
      (Parameters.fallbacks? ps?) :=
  Balanced.flatMap fun ps hps => (h ps (by simpa using hps)).balanced_listItems hnil

/-- A binding shows all that it holds if its parameters are tidy. -/
theorem Binding.balanced_items (hnil : w (.fodder []) = 0) {b : Binding α}
    (h : ∀ ps ∈ b.params, ps.IsTidy) : Balanced w b.items b.fodders b.exprs := by
  have hparams := Parameters.balanced_listItems? hnil h
  simp [Balanced, items, fodders, exprs] at hparams ⊢
  omega

/-- A clause shows all that it holds. -/
theorem Clause.balanced_items (c : Clause α) : Balanced w c.items c.fodders c.exprs := by
  have hconditions : Balanced w (c.conditions.flatMap (·.items))
      (c.conditions.map (·.ifFodder)) (c.conditions.map (·.expr)) := by
    rw [List.map_eq_flatMap, List.map_eq_flatMap]
    exact Balanced.flatMap fun d _ => by simp [Balanced, Condition.items]
  simp [Balanced, items, fodders, exprs] at hconditions ⊢
  omega

/-- Clauses show all that they hold. -/
theorem Clauses.balanced_items (cs : Clauses α) : Balanced w cs.items cs.fodders cs.exprs := by
  induction cs with
  | outermost clause => simpa [items, fodders, exprs] using clause.balanced_items
  | inside outer clause ih =>
    have happend := ih.append clause.balanced_items
    simpa [items, fodders, exprs] using happend

/-- Each kind of member shows what it may hold. -/
theorem Member.IsTidy.balanced_items (hnil : w (.fodder []) = 0) {m : Member α} (h : m.IsTidy) :
    Balanced w m.items m.fodders m.parts := by
  obtain ⟨hparams, hkinds⟩ := h
  have hmethod := Parameters.balanced_listItems? hnil hparams
  cases hkind : m.kind with
  | localBind =>
    obtain ⟨hexpr1, hexpr3⟩ : m.expr1 = none ∧ m.expr3 = none := by simpa [hkind] using hkinds
    simp [Balanced, items, fodders, parts, hkind, hexpr1, hexpr3, Function.comp_def] at hmethod ⊢
    omega
  | fieldId =>
    obtain ⟨hexpr1, hexpr3, hfodder2⟩ : m.expr1 = none ∧ m.expr3 = none ∧ m.fodder2 = [] := by
      simpa [hkind] using hkinds
    simp [Balanced, items, valueItems, fodders, parts, hkind, hexpr1, hexpr3, hfodder2, hnil,
      Function.comp_def] at hmethod ⊢
    omega
  | fieldStr =>
    obtain ⟨hexpr3, hfodder1, hfodder2⟩ : m.expr3 = none ∧ m.fodder1 = [] ∧ m.fodder2 = [] := by
      simpa [hkind] using hkinds
    simp [Balanced, items, valueItems, fodders, parts, hkind, hexpr3, hfodder1, hfodder2, hnil,
      Function.comp_def] at hmethod ⊢
    omega
  | fieldExpr =>
    have hexpr3 : m.expr3 = none := by simpa [hkind] using hkinds
    simp [Balanced, items, valueItems, fodders, parts, hkind, hexpr3, Function.comp_def]
      at hmethod ⊢
    omega
  | assert =>
    obtain ⟨hexpr1, hnone, hfodder2, hop⟩ : m.expr1 = none ∧ m.method = none ∧ m.fodder2 = [] ∧
        (m.expr3 = none → m.opFodder = []) := by simpa [hkind] using hkinds
    cases hexpr3 : m.expr3 with
    | none =>
      simp [Balanced, items, fodders, parts, hkind, hexpr1, hnone, hfodder2, hexpr3, hop hexpr3,
        hnil, Parameters.fodders?, Parameters.fallbacks?, Function.comp_def]
      omega
    | some message =>
      simp [Balanced, items, fodders, parts, hkind, hexpr1, hnone, hfodder2, hexpr3, hnil,
        Parameters.fodders?, Parameters.fallbacks?, Function.comp_def]
      omega

/-- Tidy members show all that they hold. -/
theorem Member.balanced_flatMap_items (hnil : w (.fodder []) = 0) {ms : List (Member α)}
    (h : ∀ m ∈ ms, m.IsTidy) :
    Balanced w (ms.flatMap (·.items)) (ms.flatMap (·.fodders)) (ms.flatMap (·.parts)) :=
  Balanced.flatMap fun m hm => (h m hm).balanced_items hnil

/-- A tidy form shows all fodder and all subexpressions that it holds, unless it is a local
expression that binds no name. -/
theorem Form.IsTidy.balanced_items (hnil : w (.fodder []) = 0) {form : Form α} (h : form.IsTidy)
    (hbinds : .noBinds ∉ form.items) : Balanced w form.items form.fodders form.parts := by
  cases form with
  | apply a =>
    have harguments := Arguments.balanced_items (w := w) a.arguments
    cases hstrict : a.tailStrict with
    | false =>
      have hfodder : a.tailStrictFodder = [] := h hstrict
      simp [Balanced, items, fodders, parts, hstrict, hfodder, hnil] at harguments ⊢
      omega
    | true =>
      simp [Balanced, items, fodders, parts, hstrict] at harguments ⊢
      omega
  | array a =>
    have helements := Element.balanced_items (w := w) a.elements
    simp [Balanced, items, fodders, parts] at helements ⊢
    omega
  | arrayComp a =>
    have hclauses := Clauses.balanced_items (w := w) a.clauses
    simp [Balanced, items, fodders, parts] at hclauses ⊢
    omega
  | assert a =>
    cases hmessage : a.message with
    | none =>
      have hfodder : a.colonFodder = [] := h hmessage
      simp [Balanced, items, fodders, parts, hmessage, hfodder, hnil]
      omega
    | some message =>
      simp [Balanced, items, fodders, parts, hmessage]
      omega
  | conditional c =>
    cases hno : c.no with
    | none =>
      have hfodder : c.elseFodder = [] := h hno
      simp [Balanced, items, fodders, parts, hno, hfodder, hnil]
      omega
    | some no =>
      simp [Balanced, items, fodders, parts, hno]
      omega
  | function params body =>
    have hparams := Parameters.IsTidy.balanced_listItems hnil h
    simp [Balanced, items, fodders, parts] at hparams ⊢
    omega
  | index i =>
    cases hid : i.id with
    | none =>
      simp [Balanced, items, accessItems, fodders, parts, hid, Function.comp_def]
      omega
    | some name =>
      have hindex : i.index = none := by simpa [IsTidy, hid] using h
      simp [Balanced, items, accessItems, fodders, parts, hid, hindex]
      omega
  | superIndex s =>
    cases hid : s.id with
    | none =>
      simp [Balanced, items, accessItems, fodders, parts, hid, Function.comp_def]
      omega
    | some name =>
      have hindex : s.index = none := by simpa [IsTidy, hid] using h
      simp [Balanced, items, accessItems, fodders, parts, hid, hindex]
  | locals binds body =>
    cases binds with
    | nil => simp [items] at hbinds
    | cons b rest =>
      have hitems : Balanced w ((b :: rest).flatMap (·.items)) ((b :: rest).flatMap (·.fodders))
          ((b :: rest).flatMap (·.exprs)) :=
        Balanced.flatMap fun b hb => Binding.balanced_items hnil (h b hb)
      simp [Balanced, items, fodders, parts] at hitems ⊢
      omega
  | object o =>
    have hmembers := Member.balanced_flatMap_items hnil h
    simp [Balanced, items, fodders, parts] at hmembers ⊢
    omega
  | objectComp o =>
    have hmembers := Member.balanced_flatMap_items hnil h
    have hclauses := Clauses.balanced_items (w := w) o.clauses
    simp [Balanced, items, fodders, parts] at hmembers hclauses ⊢
    omega
  | loweredObject o => exact absurd h id
  | slice s =>
    simp [Balanced, items, fodders, parts, Function.comp_def]
    omega
  | binary | inSuper | parens =>
    simp [Balanced, items, fodders, parts]
    omega
  | _ => simp [Balanced, items, fodders, parts]

end Balance

/-! ## Whole trees -/

/-- Slim fodder shows all its comments. -/
theorem Fodder.IsSlim.shown_eq {f : Fodder} (h : Fodder.IsSlim f) :
    Fodder.shown f = Fodder.comments f := by
  have helement : ∀ element ∈ f, element.shown = element.comment := by
    intro element hmem
    have hlength := h element hmem
    cases hkind : element.kind with
    | paragraph => simp [FodderElement.shown, hkind]
    | lineEnd | interstitial =>
      rcases hcomment : element.comment with _ | ⟨line, _ | ⟨next, rest⟩⟩ <;>
        simp_all [FodderElement.shown]
  exact List.flatMap_congr helement

/-- A comment is shown as often as it is stored in slim fodder. -/
theorem Fodder.IsSlim.count_shown {f : Fodder} (h : Fodder.IsSlim f) (text : String) :
    ((Fodder.shown f).map some).count (some text) = (Fodder.comments f).count text := by
  rw [List.count_map_of_injective _ _ fun _ _ => Option.some.inj, h.shown_eq]

/-- Balanced items show a note as often as the fodder and the subexpressions do together. -/
theorem Balanced.count_notes {g : α → List (Option String)} {note : Option String}
    {items : List (Item α)} {fodders : List Fodder} {parts : List α}
    (h : Balanced (fun i => (i.notes g).count note) items fodders parts) :
    (items.flatMap (Item.notes g)).count note =
      (fodders.flatMap fun f => (Fodder.shown f).map some).count note +
        (parts.flatMap g).count note := by
  rw [List.count_flatMap, List.count_flatMap, List.count_flatMap]
  exact h

/-- In the text of a tidy expression that is printed to its end, every comment stands as often
as it is stored. -/
theorem Expr.IsTidy.count_notes {e : Expr} (h : e.IsTidy) (hend : none ∉ e.notes)
    (text : String) : e.notes.count (some text) = e.comments.count text := by
  induction h with
  | @intro e hform hfront hslim _ ih =>
    rw [notes_eq] at hend
    have hitems : none ∉ e.form.items.flatMap (Item.notes notes) :=
      fun hnone => hend (List.mem_append_right _ hnone)
    have hbinds : .noBinds ∉ e.form.items :=
      fun hmem => hitems (List.mem_flatMap.2 ⟨_, hmem, List.mem_singleton.2 rfl⟩)
    have hbalance (note : Option String) : Balanced (fun i => (i.notes notes).count note)
        e.form.items e.form.fodders e.form.parts := hform.balanced_items rfl hbinds
    have hfodder : (if e.form.leftmost?.isNone then (Fodder.shown e.fodder).map some else []).count
        (some text) = (Fodder.comments e.fodder).count text := by
      cases hleft : e.form.leftmost? with
      | none => exact (hslim _ List.mem_cons_self).count_shown text
      | some part => rw [hfront (by rw [hleft]; rfl)]; rfl
    have hfodders : (e.form.fodders.flatMap fun f => (Fodder.shown f).map some).count (some text) =
        (e.form.fodders.flatMap Fodder.comments).count text := by
      rw [List.count_flatMap, List.count_flatMap]
      congr 1
      exact List.map_congr_left fun f hf => (hslim f (List.mem_cons_of_mem _ hf)).count_shown text
    -- The balance of the places where printing stops shows that no part has one.
    have hparts : none ∉ e.form.parts.flatMap notes := by
      have hnone := (hbalance none).count_notes
      rw [List.count_eq_zero_of_not_mem hitems] at hnone
      exact List.count_eq_zero.1 (by omega)
    have hbelow : (e.form.parts.flatMap notes).count (some text) =
        (e.form.parts.flatMap comments).count text := by
      rw [List.count_flatMap, List.count_flatMap]
      congr 1
      refine List.map_congr_left fun part hpart => ih part hpart fun hnone => ?_
      exact hparts (List.mem_flatMap_of_mem hpart hnone)
    rw [notes_eq, comments_eq, List.count_append, List.count_append, List.count_append,
      (hbalance (some text)).count_notes, hfodder, hfodders, hbelow, Nat.add_assoc]

/-- The comments among pieces of text, in order. -/
def Piece.comments (ps : List Piece) : List String :=
  ps.filterMap fun
    | .comment text => some text
    | _ => none

/-- Comments are notes. -/
theorem Piece.count_comments (ps : List Piece) (text : String) :
    (comments ps).count text = (notes ps).count (some text) := by
  induction ps with
  | nil => rfl
  | cons p rest ih =>
    cases p <;> simp_all [comments, List.count_cons]

namespace Tree

variable {t : Tree} {options : LayoutOptions} {limit : Nat} {text : String}

/-- The text of a tidy tree is made of the pieces of the tree, and the comments among them are the
comments stored in the tree, each as often as it is stored there. -/
theorem comments_print_perm (htidy : t.IsTidy) (h : t.print options limit = .ok text) :
    text = String.ofList ((t.pieces options).flatMap Piece.chars) ∧
      (Piece.comments (t.pieces options)).Perm t.comments := by
  obtain ⟨hend, htext⟩ := print_eq_ok h
  refine ⟨htext, List.perm_iff_count.2 fun comment => ?_⟩
  rw [notes_pieces] at hend
  have hroot := htidy.root.count_notes (fun hnone => hend (List.mem_append_left _ hnone)) comment
  rw [Piece.count_comments, notes_pieces, List.count_append, hroot,
    htidy.finalFodder.count_shown, comments, List.count_append]

/-- An object with a field that is a sum keeps a comment of two lines, a comment in front of the sum
and one that is stored twice. -/
theorem comments_print_perm_sum :
    let left : Expr := { Build.var "a" with fodder := [⟨.paragraph, 0, 2, ["// x", "// y"]⟩] }
    let right : Expr := { Build.number "1" with fodder := [⟨.interstitial, 0, 0, ["/* z */"]⟩] }
    let sum : Expr := .ofForm (.binary ⟨left, [⟨.lineEnd, 0, 2, ["// x"]⟩], .plus, right⟩)
    let field : Member Expr :=
      { Build.fieldId "f" .inherit sum with opFodder := [⟨.interstitial, 0, 0, ["/* w */"]⟩] }
    let t : Tree := ⟨.raw, Build.object [field], [⟨.lineEnd, 0, 0, ["// end"]⟩]⟩
    let comments := Piece.comments (t.pieces {})
    t.IsTidy ∧
      t.print {} 3 = .ok "\x7b f/* w */:// x\n// y\n  a  // x\n  + /* z */ 1 \x7d  // end\n\n" ∧
      comments.Perm t.comments ∧
      comments = ["/* w */", "// x", "// y", "// x", "/* z */", "// end"] := by
  intro left right sum field t comments
  have hleft : left.IsTidy := .intro trivial nofun (by decide) nofun
  have hright : right.IsTidy := .intro trivial nofun (by decide) nofun
  have hsum : sum.IsTidy := by
    refine .intro trivial (fun _ => rfl) (by decide) fun part (hpart : part ∈ [left, right]) => ?_
    rcases List.mem_pair.1 hpart with rfl | rfl
    · exact hleft
    · exact hright
  have hfield : field.IsTidy := ⟨nofun, rfl, rfl, rfl⟩
  have hobject : (Build.object [field]).IsTidy := by
    refine .intro (fun m hm => ?_) nofun (by decide) fun part (hpart : part ∈ [sum]) => ?_
    · exact List.mem_singleton.1 hm ▸ hfield
    · exact List.mem_singleton.1 hpart ▸ hsum
  have htidy : t.IsTidy := ⟨hobject, by decide⟩
  have hprint : t.print {} 3 =
      .ok "\x7b f/* w */:// x\n// y\n  a  // x\n  + /* z */ 1 \x7d  // end\n\n" := by
    decide +kernel
  have hcomments : comments = ["/* w */", "// x", "// y", "// x", "/* z */", "// end"] := by
    decide +kernel
  exact ⟨htidy, hprint, (comments_print_perm htidy hprint).2, hcomments⟩

end Tree

end JsonnetTree
