import JsonnetTree.Proofs.Layout.Items
import Mathlib.Order.Lattice
import Mathlib.Order.BooleanAlgebra.Defs

/-!
# The script of a form

Many facts about printed text are proved in the same way: they hold for tokens, for fodder and for
the texts of subexpressions, they are kept where texts are put together, and so they hold for the
texts of all forms. This module goes through the printer once and shows that the text of every form
is put together in this way (`Form.script`). A script tells the items of a form in the order in
which they are printed, and it keeps account of whether the text so far may end in a word.
-/

namespace JsonnetTree

/-! ## Scripts -/

instance : Preorder LayoutOptions :=
  Preorder.lift fun options => (options.padArrays, options.padObjects)

/-- What the text of a form depends on beside the texts of its subexpressions: the options, and
whether the text before is crowded. -/
abbrev Situation := LayoutOptions × Bool

/-- A text that is made from those of subexpressions. -/
abbrev Text := Situation → (Expr → Bool → List Piece) → List Piece

/-- An expression as an operand that is printed in the given way. -/
def printedBy (print : Expr → Bool → List Piece) (e : Expr) : Operand :=
  (e, print e)

/-- A text is put together from tokens, fodder that satisfies `P` and subexpressions that satisfy
`Q`. The fodder and the subexpressions are the given items, in order. `before` and `after` say
whether the text may end in a word before and after what is added to it. -/
inductive Script (P : Fodder → Prop) (Q : Expr → Prop) :
    (before : Situation → Bool) → Text → List (Item Expr) → (after : Situation → Bool) → Prop
  | nil {s : Situation → Bool} : Script P Q s (fun _ _ => []) [] s
  | word (text : String) : Script P Q ⊥ (fun _ _ => [.word text]) [] ⊤
  | mark {s : Situation → Bool} (text : String) : Script P Q s (fun _ _ => [.mark text]) [] ⊥
  | literal {s : Situation → Bool} (text : String) :
      Script P Q s (fun _ _ => [.literal text]) [] ⊥
  | space {s : Situation → Bool} : Script P Q s (fun _ _ => [.spaces 1]) [] ⊥
  | noBinds {s : Situation → Bool} : Script P Q s (fun _ _ => [.noBinds]) [.noBinds] s
  /-- Where there is no fodder, there may be a space. -/
  | padding {s crowded separate : Situation → Bool} (hcrowded : Monotone crowded)
      (hseparate : Monotone separate) :
      Script P Q s (fun x _ => fill [] (crowded x) (separate x)) [] s
  | fodder {s crowded separate : Situation → Bool} {f : Fodder} (hf : P f)
      (hcrowded : Monotone crowded) (hseparate : Monotone separate) :
      Script P Q s (fun x _ => fill f (crowded x) (separate x)) [.fodder f] s
  /-- Fodder that asks for a space at its end keeps words apart, where it is told that one may
  stand before it. -/
  | separator {s crowded : Situation → Bool} {f : Fodder} (hf : P f) (hcrowded : Monotone crowded)
      (hs : s ≤ crowded) : Script P Q s (fun x _ => fill f (crowded x) true) [.fodder f] ⊥
  /-- A subexpression may follow a word only where it is told so. -/
  | sub {s crowded : Situation → Bool} {a : Expr} (ha : Q a) (hcrowded : Monotone crowded)
      (hs : s ≤ crowded) : Script P Q s (fun x print => print a (crowded x)) [.sub a] ⊤
  | append {s s' s'' : Situation → Bool} {text text' : Text} {items items' : List (Item Expr)}
      (h : Script P Q s text items s') (h' : Script P Q s' text' items' s'') :
      Script P Q s (fun x print => text x print ++ text' x print) (items ++ items') s''
  | weaken {s before after s' : Situation → Bool} {text : Text} {items : List (Item Expr)}
      (h : Script P Q before text items after) (hbefore : s ≤ before) (hafter : after ≤ s') :
      Script P Q s text items s'

namespace Script

variable {α β : Type} {P : Fodder → Prop} {Q : Expr → Prop} {s s' : Situation → Bool}
  {text : Text} {items items' : List (Item Expr)} {f : Fodder} {a : Expr}

/-- Arrays are padded in a situation with more switches set, if they are in one with fewer. -/
theorem monotone_padArrays : Monotone fun x : Situation => x.1.padArrays := fun _ _ h => h.1.1

/-- Objects are padded in a situation with more switches set, if they are in one with fewer. -/
theorem monotone_padObjects : Monotone fun x : Situation => x.1.padObjects := fun _ _ h => h.1.2

/-- All but the first item of a list are crowded; the first one may be padded. -/
theorem monotone_item {pad : Situation → Bool} (hpad : Monotone pad) (first : Bool) :
    Monotone fun x => !first || pad x :=
  fun _ _ h => sup_le_sup_left (hpad h) _

/-- Nothing is said of the end of a text in the end. -/
theorem conclude (h : Script P Q s text items s') (hitems : items = items') :
    Script P Q s text items' ⊤ :=
  hitems ▸ h.weaken le_rfl le_top

/-- Fodder that changes nothing about the words around it. -/
theorem fixed (hf : P f) (crowded separate : Bool) :
    Script P Q s (fun _ _ => fill f crowded separate) [.fodder f] s :=
  .fodder hf monotone_const monotone_const

/-- Fodder in crowded text that keeps words apart. -/
theorem gap (hf : P f) : Script P Q s (fun _ _ => fill f true true) [.fodder f] ⊥ :=
  .separator hf monotone_const le_top

/-- A subexpression in crowded text may stand anywhere. -/
theorem crowded (ha : Q a) : Script P Q s (fun _ print => print a true) [.sub a] ⊤ :=
  .sub ha monotone_const le_top

/-- A subexpression that follows a mark. -/
theorem plain (ha : Q a) : Script P Q ⊥ (fun _ print => print a false) [.sub a] ⊤ :=
  .sub ha monotone_const bot_le

/-- A mark that stands on a condition. -/
theorem markIf (b : Bool) (text : String) :
    Script P Q s (fun _ _ => if b then [.mark text] else []) [] s := by
  cases b with
  | false => exact .nil
  | true => exact (Script.mark text).weaken le_rfl bot_le

/-- Texts that are strung together. -/
protected theorem flatMap {print : Situation → β → List Piece}
    {operand : (Expr → Bool → List Piece) → α → β} {holds : α → List (Item Expr)} {as : List α}
    (h : ∀ a ∈ as, Script P Q ⊤ (fun x text => print x (operand text a)) (holds a) ⊤) :
    Script P Q ⊤ (fun x text => (as.map (operand text)).flatMap (print x)) (as.flatMap holds) ⊤ := by
  induction as with
  | nil => exact .nil
  | cons a rest ih =>
    rw [List.forall_mem_cons] at h
    exact h.1.append (ih h.2)

/-- A list whose items are printed with commas between them. Where it goes on, and at its end unless
nothing has been printed, the text may end in a word. -/
protected theorem printList {print : Situation → Bool → β → List Piece}
    {operand : (Expr → Bool → List Piece) → α → β} {holds : α → List (Item Expr)} {as : List α}
    (h : ∀ a ∈ as, ∀ first, Script P Q ⊥ (fun x text => print x first (operand text a)) (holds a) ⊤)
    (first : Bool) :
    Script P Q (fun _ => !first)
      (fun x text => printList (print x) first (as.map (operand text))) (as.flatMap holds)
      (fun _ => !(first && as.isEmpty)) := by
  induction as generalizing first with
  | nil =>
    rw [List.isEmpty_nil, Bool.and_true]
    exact .nil
  | cons a rest ih =>
    rw [List.forall_mem_cons] at h
    have hrest := ih h.2 false
    have hfirst : Script P Q (fun _ => !first)
        (fun x text => (if first then [] else [.mark ","]) ++ print x first (operand text a))
        (holds a) ⊤ := by
      cases first with
      | true => exact .append .nil (h.1 true)
      | false => exact .append (.mark ",") (h.1 false)
    rw [List.isEmpty_cons, Bool.and_false]
    exact hfirst.append hrest

/-- A list from its first item on may stand where its items may. -/
theorem printList_true {print : Situation → Bool → β → List Piece}
    {operand : (Expr → Bool → List Piece) → α → β} {holds : α → List (Item Expr)} {as : List α}
    (h : ∀ a ∈ as, ∀ first, Script P Q s (fun x text => print x first (operand text a)) (holds a) ⊤) :
    Script P Q s (fun x text => printList (print x) true (as.map (operand text)))
      (as.flatMap holds) ⊤ := by
  cases as with
  | nil => exact nil.weaken le_rfl le_top
  | cons a rest =>
    rw [List.forall_mem_cons] at h
    have hrest := Script.printList (fun b hb first => (h.2 b hb first).weaken bot_le le_rfl) false
    exact (nil.append (h.1 true)).append hrest

/-- A subexpression that may be missing. -/
theorem optional {crowded : Situation → Bool} {a? : Option Expr} (h : ∀ a ∈ a?.toList, Q a)
    (hcrowded : Monotone crowded) (hs : s ≤ crowded) :
    Script P Q s (fun x print => printOption (a?.map (printedBy print)) (crowded x))
      (a?.toList.map .sub) ⊤ := by
  cases a? with
  | none => exact nil.weaken le_rfl le_top
  | some a => exact .sub (h a (by simp)) hcrowded hs

/-- A subexpression in crowded text that may be missing. -/
theorem optionalCrowded {a? : Option Expr} (h : ∀ a ∈ a?.toList, Q a) :
    Script P Q s (fun _ print => printOption (a?.map (printedBy print)) true)
      (a?.toList.map .sub) ⊤ :=
  optional h monotone_const le_top

/-- A subexpression that may be missing, after a mark. -/
theorem optionalPlain {a? : Option Expr} (h : ∀ a ∈ a?.toList, Q a) :
    Script P Q ⊥ (fun _ print => printOption (a?.map (printedBy print)) false)
      (a?.toList.map .sub) ⊤ :=
  optional h monotone_const bot_le

end Script

/-! ## The parts of a form -/

open Script

variable {P : Fodder → Prop} {Q : Expr → Prop}

/-- The script of a list element. -/
theorem Element.script {e : Element Expr} {pad : Situation → Bool} (hfodder : P e.commaFodder)
    (hexpr : Q e.expr) (hpad : Monotone pad) (first : Bool) :
    Script P Q ⊥ (fun x print => (e.map (printedBy print)).pieces (pad x) first) e.items ⊤ :=
  .append (.sub hexpr (monotone_item hpad first) bot_le) (fixed hfodder false false)

/-- The script of an argument passed by name. -/
theorem NamedArgument.script {a : NamedArgument Expr} (hfodder : ∀ f ∈ a.fodders, P f)
    (hvalue : Q a.value) (first : Bool) :
    Script P Q ⊥ (fun _ print => (a.map (printedBy print)).pieces first) a.items ⊤ := by
  have hname := hfodder a.nameFodder (by simp [fodders])
  have heq := hfodder a.eqFodder (by simp [fodders])
  have hcomma := hfodder a.commaFodder (by simp [fodders])
  exact (((((fixed hname _ _).append (.word _)).append (fixed heq _ _)).append (.mark _)).append
    (plain hvalue)).append (fixed hcomma _ _)

/-- The script of arguments. -/
theorem Arguments.script {a : Arguments Expr} (hfodder : ∀ f ∈ a.fodders, P f)
    (hexprs : ∀ e ∈ a.exprs, Q e) :
    Script P Q ⊥ (fun _ print => (a.map (printedBy print)).pieces) a.items ⊤ := by
  have hpositional : ∀ e ∈ a.positional, ∀ first, Script P Q ⊥
      (fun _ print => (e.map (printedBy print)).pieces false first) e.items ⊤ := fun e he =>
    Element.script (hfodder _ (by simp [fodders]; grind)) (hexprs _ (by simp [exprs]; grind))
      monotone_const
  have hnamed : ∀ b ∈ a.named, ∀ first, Script P Q ⊥
      (fun _ print => (b.map (printedBy print)).pieces first) b.items ⊤ := fun b hb =>
    NamedArgument.script (fun f hf => hfodder f (by simp [fodders]; grind))
      (hexprs _ (by simp [exprs]; grind))
  simp only [pieces, map, List.isEmpty_map]
  exact ((Script.printList hpositional true).append (Script.printList hnamed _)).weaken le_rfl le_top

/-- The script of a parameter. -/
theorem Parameter.script {p : Parameter Expr} (hfodder : ∀ f ∈ p.fodders, P f)
    (hfallback : ∀ e ∈ p.fallback.toList, Q e) (first : Bool) :
    Script P Q ⊥ (fun _ print => (p.map (printedBy print)).pieces first) p.items ⊤ := by
  have hname := hfodder p.nameFodder (by simp [fodders])
  have heq := hfodder p.eqFodder (by simp [fodders])
  have hcomma := hfodder p.commaFodder (by simp [fodders])
  have hstart := (fixed hname (!first) true).append (.word (Q := Q) p.name)
  simp only [pieces, map, items]
  cases hvalue : p.fallback with
  | none => exact (hstart.append .nil).append (fixed hcomma _ _)
  | some value =>
    have hvalue : Q value := hfallback value (by simp [hvalue])
    exact (hstart.append (((fixed heq _ _).append (.mark _)).append (plain hvalue))).append
      (fixed hcomma _ _)

/-- The script of a parameter list, which starts with a mark. -/
theorem Parameters.script {ps : Parameters Expr} (hfodder : ∀ f ∈ ps.fodders, P f)
    (hfallbacks : ∀ e ∈ ps.fallbacks, Q e) :
    Script P Q ⊤ (fun _ print => (ps.map (printedBy print)).pieces) ps.listItems ⊤ := by
  have hleft := hfodder ps.leftFodder (by simp [fodders])
  have hright := hfodder ps.rightFodder (by simp [fodders])
  have hitems : ∀ p ∈ ps.items, ∀ first, Script P Q ⊥
      (fun _ print => (p.map (printedBy print)).pieces first) p.items ⊤ := fun p hp =>
    Parameter.script (fun f hf => hfodder f (by simp [fodders]; grind))
      fun e he => hfallbacks e (by simp [fallbacks] at he ⊢; exact ⟨p, hp, he⟩)
  simp only [pieces, map]
  refine conclude ((((((fixed hleft _ _).append (.mark _)).append (printList_true hitems)).append
    (markIf _ _)).append (fixed hright _ _)).append (.mark _)) ?_
  simp [listItems]

/-- The script of a parameter list that may be missing. -/
theorem Parameters.script? {ps? : Option (Parameters Expr)}
    (hfodder : ∀ f ∈ Parameters.fodders? ps?, P f)
    (hfallbacks : ∀ e ∈ Parameters.fallbacks? ps?, Q e) :
    Script P Q ⊤ (fun _ print => Parameters.pieces? (ps?.map (·.map (printedBy print))))
      (Parameters.listItems? ps?) ⊤ := by
  cases ps? with
  | none => exact .nil
  | some ps =>
    rw [listItems?, Option.toList_some, List.flatMap_singleton]
    exact Parameters.script (fun f hf => hfodder f (by simpa [fodders?]))
      fun e he => hfallbacks e (by simpa [fallbacks?])

/-- The script of a binding. Its name is set off from a word before it. -/
theorem Binding.script {b : Binding Expr} (hfodder : ∀ f ∈ b.fodders, P f)
    (hexprs : ∀ e ∈ b.exprs, Q e) (first : Bool) :
    Script P Q ⊤ (fun _ print => (b.map (printedBy print)).pieces first) b.items ⊤ := by
  have hvar := hfodder b.varFodder (by simp [fodders])
  have heq := hfodder b.eqFodder (by simp [fodders])
  have hclose := hfodder b.closeFodder (by simp [fodders])
  have hparams := Parameters.script? (fun f hf => hfodder f (by simp [fodders, hf]))
    fun e (he : e ∈ Parameters.fallbacks? b.params) => hexprs e (by simp [exprs, he])
  have hbody := hexprs b.body (by simp [exprs])
  refine conclude (((((((gap hvar).append (.word _)).append hparams).append (gap heq)).append
    (.mark _)).append (crowded hbody)).append (fixed hclose _ _)) ?_
  simp [items]

/-- The script of a clause. -/
theorem Clause.script {c : Clause Expr} (hfodder : ∀ f ∈ c.fodders, P f)
    (hexprs : ∀ e ∈ c.exprs, Q e) :
    Script P Q ⊤ (fun _ print => (c.map (printedBy print)).pieces) c.items ⊤ := by
  have hfor := hfodder c.forFodder (by simp [fodders])
  have hvar := hfodder c.varFodder (by simp [fodders])
  have hin := hfodder c.inFodder (by simp [fodders])
  have hexpr := hexprs c.expr List.mem_cons_self
  have hconditions : ∀ d ∈ c.conditions, Script P Q ⊤
      (fun _ print => (d.map (printedBy print)).pieces) d.items ⊤ := by
    intro d hd
    have hif := hfodder d.ifFodder (by simp [fodders]; grind)
    have hcondition := hexprs d.expr (List.mem_cons_of_mem _ (List.mem_map_of_mem hd))
    exact ((gap hif).append (.word _)).append (crowded hcondition)
  refine conclude ((((((((gap hfor).append (.word _)).append (gap hvar)).append (.word _)).append
    (gap hin)).append (.word _)).append (crowded hexpr)).append (Script.flatMap hconditions)) ?_
  simp [items]

/-- The script of clauses, the outer ones first. -/
theorem Clauses.script {cs : Clauses Expr} (hfodder : ∀ f ∈ cs.fodders, P f)
    (hexprs : ∀ e ∈ cs.exprs, Q e) :
    Script P Q ⊤ (fun _ print => (cs.map (printedBy print)).pieces) cs.items ⊤ := by
  induction cs with
  | outermost clause =>
    rw [items, toList_outermost, List.flatMap_singleton]
    exact Clause.script hfodder hexprs
  | inside outer clause ih =>
    have houter := ih (fun f hf => hfodder f (List.mem_append_left _ hf))
      fun e he => hexprs e (List.mem_append_left _ he)
    have hclause := Clause.script (fun f hf => hfodder f (List.mem_append_right outer.fodders hf))
      fun e he => hexprs e (List.mem_append_right outer.exprs he)
    refine conclude (houter.append hclause) ?_
    simp [items]

namespace Member

variable {m : Member Expr}

/-- The script of an identifier. -/
theorem script_id (m : Member Expr) (print : (Expr → Bool → List Piece) → Expr → Operand) :
    Script P Q ⊥ (fun _ text => (m.map (print text)).idPieces) [] ⊤ := by
  simp only [idPieces, map]
  cases m.id with
  | none => exact nil.weaken le_rfl le_top
  | some id => exact .word id

/-- The script of the value of a named field. -/
theorem script_value (hfodder : ∀ f ∈ m.fodders, P f) (hparts : ∀ e ∈ m.parts, Q e) :
    Script P Q ⊤ (fun _ print => (m.map (printedBy print)).valuePieces) m.valueItems ⊤ := by
  have hop := hfodder m.opFodder (by simp [fodders])
  have hmethod := Parameters.script? (fun f hf => hfodder f (by simp [fodders, hf]))
    fun e (he : e ∈ Parameters.fallbacks? m.method) => hparts e (by simp [parts, he])
  have hvalue : ∀ e ∈ m.expr2.toList, Q e := fun e he => hparts e (by simp [parts, he])
  simp only [valuePieces, map]
  refine conclude ((((hmethod.append (fixed hop _ _)).append (markIf _ _)).append (.mark _)).append
    (optionalCrowded hvalue)) ?_
  simp [valueItems]

/-- The script of a member, whatever its kind. -/
theorem script {pad : Situation → Bool} (hfodder : ∀ f ∈ m.fodders, P f)
    (hparts : ∀ e ∈ m.parts, Q e) (hpad : Monotone pad) (first : Bool) :
    Script P Q ⊥ (fun x print => (m.map (printedBy print)).pieces (pad x) first) m.items ⊤ := by
  have hitem := monotone_item hpad first
  have hfodder1 := hfodder m.fodder1 (by simp [fodders])
  have hfodder2 := hfodder m.fodder2 (by simp [fodders])
  have hop := hfodder m.opFodder (by simp [fodders])
  have hcomma := hfodder m.commaFodder (by simp [fodders])
  have hexpr1 : ∀ e ∈ m.expr1.toList, Q e := fun e he => hparts e (by simp [parts, he])
  have hexpr2 : ∀ e ∈ m.expr2.toList, Q e := fun e he => hparts e (by simp [parts, he])
  have hvalue := script_value hfodder hparts
  have hstart : Script P Q ⊥ (fun x _ => fill m.fodder1 (!first || pad x) true)
      [.fodder m.fodder1] ⊥ := .fodder hfodder1 hitem monotone_const
  simp only [pieces, items]
  refine .append ?_ (fixed hcomma _ _)
  simp only [map]
  cases hkind : m.kind with
  | localBind =>
    have hmethod := Parameters.script? (fun f hf => hfodder f (by simp [fodders, hf]))
      fun e (he : e ∈ Parameters.fallbacks? m.method) => hparts e (by simp [parts, he])
    refine conclude (((((((hstart.append (.word _)).append (gap hfodder2)).append
      (script_id m printedBy)).append hmethod).append (gap hop)).append (.mark _)).append
      (optionalCrowded hexpr2)) ?_
    simp
  | fieldId => exact conclude ((hstart.append (script_id m printedBy)).append hvalue) (by simp)
  | fieldStr => exact (optional hexpr1 hitem bot_le).append hvalue
  | fieldExpr =>
    refine conclude (((((hstart.append (.mark _)).append
      (optionalPlain hexpr1)).append (fixed hfodder2 _ _)).append (.mark _)).append
      (hvalue.weaken bot_le le_rfl)) ?_
    simp
  | assert =>
    have hcondition := (hstart.append (.word "assert")).append (optionalCrowded hexpr2)
    cases hexpr3 : m.expr3 with
    | none => exact conclude (hcondition.append .nil) (by simp)
    | some message =>
      have hmessage := hparts message (by simp [parts, hexpr3])
      refine conclude (hcondition.append (((gap hop).append (.mark _)).append
        (crowded hmessage))) ?_
      simp

end Member

namespace LoweredObject

variable {o : LoweredObject Expr} {pad : Situation → Bool}

/-- The script of a local binding of a lowered object, where its own fodder is left out. -/
theorem script_local {b : Binding Expr} (hfodder : ∀ f ∈ b.fodders, P f)
    (hexprs : ∀ e ∈ b.exprs, Q e) (hpad : Monotone pad) (first : Bool) :
    Script P Q ⊥ (fun x print => localPieces (pad x) first (b.map (printedBy print)))
      b.loweredItems ⊤ := by
  have hparams := Parameters.script? (fun f hf => hfodder f (by simp [Binding.fodders, hf]))
    fun e (he : e ∈ Parameters.fallbacks? b.params) => hexprs e (by simp [Binding.exprs, he])
  have hbody := hexprs b.body (by simp [Binding.exprs])
  have hname : Script P Q ⊥ (fun _ _ => [.word "local", .spaces 1, .word b.name]) [] ⊤ :=
    (((Script.word "local").append .space).append (.word b.name))
  have hsign : Script P Q ⊤ (fun _ _ => [.spaces 1, .mark "="]) [] ⊥ :=
    space.append (.mark "=")
  refine conclude (((((padding (monotone_item hpad first) monotone_const).append hname).append
    hparams).append hsign).append (crowded hbody)) ?_
  simp [Binding.loweredItems]

/-- The script of a field of a lowered object, with and without brackets around its name. -/
theorem script_field {d : LoweredField Expr} (hname : Q d.name) (hbody : Q d.body)
    (hpad : Monotone pad) (first : Bool) :
    Script P Q ⊥ (fun x print => fieldPieces (pad x) first (d.map (printedBy print))) d.items ⊤ := by
  have hitem := monotone_item hpad first
  simp only [fieldPieces, LoweredField.map, printedBy]
  split
  · exact (((Script.sub hname hitem bot_le).append (markIf _ _)).append (.mark _)).append
      (crowded hbody)
  · exact (((((((padding hitem monotone_const).append (.mark _)).append (plain hname)).append
      (.mark _)).append (markIf _ _)).append (.mark _)).append (crowded hbody))

/-- The script of an assertion of a lowered object. -/
theorem script_assert {e : Expr} (he : Q e) (hpad : Monotone pad) (first : Bool) :
    Script P Q ⊥ (fun x print => assertPieces (pad x) first (printedBy print e)) [.sub e] ⊤ :=
  ((padding (monotone_item hpad first) monotone_const).append (.word _)).append (crowded he)

/-- The script of a lowered object. -/
theorem script (hfodder : ∀ f ∈ (Form.loweredObject o).fodders, P f)
    (hparts : ∀ e ∈ (Form.loweredObject o).parts, Q e) (hpad : Monotone pad) :
    Script P Q ⊥ (fun x print => (LoweredObject.mk (o.asserts.map (printedBy print))
      (o.fields.map (·.map (printedBy print)))
      (o.locals.map (·.map (printedBy print)))).pieces (pad x)) o.items ⊤ := by
  have hlocals : ∀ b ∈ o.locals, ∀ first, Script P Q ⊥
      (fun x print => localPieces (pad x) first (b.map (printedBy print))) b.loweredItems ⊤ :=
    fun b hb => script_local (fun f hf => hfodder f (List.mem_flatMap_of_mem hb hf))
      (fun e he => hparts e (by simp [Form.parts]; grind)) hpad
  have hfields : ∀ d ∈ o.fields, ∀ first, Script P Q ⊥
      (fun x print => fieldPieces (pad x) first (d.map (printedBy print))) d.items ⊤ :=
    fun d hd => script_field (hparts _ (by simp [Form.parts]; grind))
      (hparts _ (by simp [Form.parts]; grind)) hpad
  have hasserts : ∀ e ∈ o.asserts, ∀ first, Script P Q ⊥
      (fun x print => assertPieces (pad x) first (printedBy print e)) [.sub e] ⊤ :=
    fun e he => script_assert (hparts e (by simp [Form.parts, he])) hpad
  simp only [pieces, List.isEmpty_map]
  refine conclude ((((((Script.mark _).append (Script.printList hlocals true)).append
    (Script.printList hfields _)).append (Script.printList hasserts _)).append
    (padding monotone_const hpad)).append (.mark _)) ?_
  simp [items, List.map_eq_flatMap]

end LoweredObject

/-- The script of an access, which starts with a mark. -/
theorem script_printAccess {index : Option Expr} {f : Fodder} (hfodder : P f)
    (hindex : ∀ e ∈ index.toList, Q e) (id : Option String) :
    Script P Q ⊤ (fun _ print => printAccess id (index.map (printedBy print)) f)
      (accessItems id index f) ⊤ := by
  cases id with
  | none =>
    refine conclude ((((Script.mark _).append (optionalPlain hindex)).append
      (fixed hfodder _ _)).append (.mark _)) ?_
    simp [accessItems]
  | some name => exact ((Script.mark _).append (fixed hfodder _ _)).append (.word name)

/-- The script of an operator, which is a word or a mark. -/
theorem BinaryOp.script (op : BinaryOp) : Script P Q ⊥ (fun _ _ => [op.piece]) [] ⊤ := by
  cases op with
  | isIn => exact .word _
  | _ => exact (Script.mark _).weaken le_rfl le_top

/-! ## Forms -/

namespace Form

/-- The text of a form, if `print` gives those of its parts. -/
def piecesWith (options : LayoutOptions) (crowded : Bool) (print : Expr → Bool → List Piece)
    (form : Form Expr) : List Piece :=
  (form.map fun part => (part, print part)).pieces options crowded

/-- The text of a form is put together from tokens, its fodder and its subexpressions, in the order
of its items. It may follow a word only where it starts with a subexpression that is told so; all
other forms print fodder first. -/
theorem script {form : Form Expr} (hfodder : ∀ f ∈ form.fodders, P f)
    (hparts : ∀ e ∈ form.parts, Q e) :
    Script P Q (fun x => form.leftmost?.isSome && x.2)
      (fun x print => form.piecesWith x.1 x.2 print) form.items ⊤ := by
  change Script P Q _ (fun x print => (form.map (printedBy print)).pieces x.1 x.2) _ _
  -- Forms that start with a subexpression tell it whether the text before is crowded.
  have hleft {a : Expr} (ha : Q a) :
      Script P Q (fun x => true && x.2) (fun x print => print a x.2) [.sub a] ⊤ :=
    .sub ha monotone_snd le_rfl
  cases form with
  | apply a =>
    have hopen := hfodder a.leftFodder (by simp [fodders])
    have hclose := hfodder a.rightFodder (by simp [fodders])
    have hstrict := hfodder a.tailStrictFodder (by simp [fodders])
    have harguments := Arguments.script (fun f hf => hfodder f (by simp [fodders, hf]))
      fun e (he : e ∈ a.arguments.exprs) => hparts e (by simp [parts, he])
    have hcall := ((((((hleft (hparts a.target (by simp [parts]))).append
      (fixed hopen false false)).append (.mark "(")).append harguments).append
      (markIf a.trailingComma ",")).append (fixed hclose false false)).append (.mark ")")
    simp only [map, pieces]
    cases h : a.tailStrict with
    | false => exact conclude (hcall.append .nil) (by simp [items, h])
    | true =>
      exact conclude (hcall.append ((gap hstrict).append (.word _))) (by simp [items, h])
  | applyBrace left right =>
    exact (hleft (hparts left (by simp [parts]))).append (crowded (hparts right (by simp [parts])))
  | array a =>
    have hclose := hfodder a.closeFodder (by simp [fodders])
    have helements : ∀ e ∈ a.elements, ∀ first, Script P Q ⊥
        (fun x print => (e.map (printedBy print)).pieces x.1.padArrays first) e.items ⊤ :=
      fun e he => Element.script (hfodder _ (by simp [fodders]; grind))
        (hparts _ (List.mem_map_of_mem he)) monotone_padArrays
    simp only [map, pieces, List.isEmpty_map]
    refine conclude (((((Script.mark _).append (printList_true helements)).append
      (markIf _ _)).append (.fodder hclose monotone_const monotone_padArrays)).append (.mark _)) ?_
    simp [items]
  | arrayComp a =>
    have hcomma := hfodder a.commaFodder (by simp [fodders])
    have hclose := hfodder a.closeFodder (by simp [fodders])
    have hclauses := Clauses.script (fun f hf => hfodder f (by simp [fodders, hf]))
      fun e (he : e ∈ a.clauses.exprs) => hparts e (by simp [parts, he])
    have hbody : Script P Q ⊥ (fun x print => print a.body x.1.padArrays) [.sub a.body] ⊤ :=
      .sub (hparts a.body (by simp [parts])) monotone_padArrays bot_le
    simp only [map, pieces]
    refine conclude (((((((Script.mark _).append hbody).append (fixed hcomma _ _)).append
      (markIf _ _)).append hclauses).append
      (.fodder hclose monotone_const monotone_padArrays)).append (.mark _)) ?_
    simp [items]
  | assert a =>
    have hcolon := hfodder a.colonFodder (by simp [fodders])
    have hsemicolon := hfodder a.semicolonFodder (by simp [fodders])
    have hcondition := (Script.word (P := P) "assert").append
      (crowded (hparts a.condition (by simp [parts])))
    have hrest := hparts a.rest (by simp [parts])
    simp only [map, pieces]
    cases h : a.message with
    | none =>
      refine conclude ((((hcondition.append .nil).append (fixed hsemicolon _ _)).append
        (.mark _)).append (crowded hrest)) ?_
      simp [items, h]
    | some message =>
      have hmessage := hparts message (by simp [parts, h])
      refine conclude ((((hcondition.append (((gap hcolon).append (.mark _)).append
        (crowded hmessage))).append (fixed hsemicolon _ _)).append (.mark _)).append
        (crowded hrest)) ?_
      simp [items, h]
  | binary b =>
    have hop := hfodder b.opFodder (by simp [fodders])
    exact (((hleft (hparts b.left (by simp [parts]))).append (gap hop)).append b.op.script).append
      (crowded (hparts b.right (by simp [parts])))
  | conditional c =>
    have hthen := hfodder c.thenFodder (by simp [fodders])
    have helse := hfodder c.elseFodder (by simp [fodders])
    have hyes := ((((Script.word "if").append (crowded (hparts c.condition (by simp [parts])))).append
      (gap hthen)).append (.word "then")).append (crowded (hparts c.yes (by simp [parts])))
    simp only [map, pieces]
    cases h : c.no with
    | none => exact conclude (hyes.append .nil) (by simp [items, h])
    | some no =>
      have hno := hparts no (by simp [parts, h])
      refine conclude (hyes.append (((gap helse).append (.word _)).append (crowded hno))) ?_
      simp [items, h]
  | function params body =>
    have hparams := Parameters.script (fun f hf => hfodder f hf)
      fun e (he : e ∈ params.fallbacks) => hparts e (by simp [parts, he])
    exact conclude (((Script.word _).append hparams).append
      (crowded (hparts body (by simp [parts])))) rfl
  | index i =>
    have hopen := hfodder i.leftFodder (by simp [fodders])
    have haccess := script_printAccess (hfodder i.rightFodder (by simp [fodders]))
      (fun e (he : e ∈ i.index.toList) => hparts e (by simp [parts, he])) i.id
    exact ((hleft (hparts i.target (by simp [parts]))).append (fixed hopen _ _)).append haccess
  | slice s =>
    have hopen := hfodder s.leftFodder (by simp [fodders])
    have hstopFodder := hfodder s.stopFodder (by simp [fodders])
    have hstepFodder := hfodder s.stepFodder (by simp [fodders])
    have hclose := hfodder s.rightFodder (by simp [fodders])
    have hstart : ∀ e ∈ s.start.toList, Q e := fun e he => hparts e (by simp [parts, he])
    have hstop : ∀ e ∈ s.stop.toList, Q e := fun e he => hparts e (by simp [parts, he])
    have hstep : ∀ e ∈ s.step.toList, Q e := fun e he => hparts e (by simp [parts, he])
    have hrange := ((((((hleft (hparts s.target (by simp [parts]))).append
      (fixed hopen false false)).append (.mark "[")).append (optionalPlain hstart)).append
      (fixed hstopFodder false false)).append (.mark ":")).append (optionalPlain hstop)
    simp only [map, pieces, Option.isSome_map]
    -- Without a step the colon before it is left out, and then so is its fodder, which is empty.
    by_cases hcolon : (s.step.isSome || !s.stepFodder.isEmpty) = true
    · simp only [if_pos hcolon]
      refine conclude (((hrange.append (((fixed hstepFodder _ _).append (.mark _)).append
        (optionalPlain hstep))).append (fixed hclose _ _)).append (.mark _)) ?_
      simp [items]
    · have hnone : s.step = none ∧ s.stepFodder = [] := by simpa using hcolon
      have hempty : Script P Q ⊤ (fun _ _ => []) [.fodder s.stepFodder] ⊤ := by
        rw [hnone.2] at hstepFodder ⊢
        exact fixed hstepFodder false false
      simp only [if_neg hcolon]
      refine conclude (((hrange.append hempty).append (fixed hclose _ _)).append (.mark _)) ?_
      simp [items, hnone]
  | inSuper i =>
    have hin := hfodder i.inFodder (by simp [fodders])
    have hsuper := hfodder i.superFodder (by simp [fodders])
    -- The operand is printed in crowded text, whatever stands before the form.
    exact ((((crowded (hparts i.index (by simp [parts]))).append (gap hin)).append (.word _)).append
      (gap hsuper)).append (.word _)
  | locals binds body =>
    cases binds with
    | nil => exact conclude ((Script.word "local").append .noBinds) rfl
    | cons b rest =>
      have hbinds : ∀ c ∈ b :: rest, ∀ first, Script P Q ⊤
          (fun _ print => (c.map (printedBy print)).pieces first) c.items ⊤ := fun c hc =>
        Binding.script (fun f hf => hfodder f (List.mem_flatMap_of_mem hc hf))
          fun e he => hparts e (List.mem_append_left _ (List.mem_flatMap_of_mem hc he))
      refine conclude ((((Script.word _).append (printList_true hbinds)).append (.mark _)).append
        (crowded (hparts body (by simp [parts])))) ?_
      simp [items]
  | object o =>
    have hclose := hfodder o.closeFodder (by simp [fodders])
    have hmembers : ∀ m ∈ o.members, ∀ first, Script P Q ⊥
        (fun x print => (m.map (printedBy print)).pieces x.1.padObjects first) m.items ⊤ :=
      fun m hm => Member.script
        (fun f hf => hfodder f (List.mem_append_left _ (List.mem_flatMap_of_mem hm hf)))
        (fun e he => hparts e (List.mem_flatMap_of_mem hm he)) monotone_padObjects
    simp only [map, pieces, List.isEmpty_map]
    refine conclude (((((Script.mark _).append (printList_true hmembers)).append
      (markIf _ _)).append (.fodder hclose monotone_const monotone_padObjects)).append (.mark _)) ?_
    simp [items]
  | loweredObject o => exact LoweredObject.script hfodder hparts monotone_padObjects
  | objectComp o =>
    have hclose := hfodder o.closeFodder (by simp [fodders])
    have hmembers : ∀ m ∈ o.members, ∀ first, Script P Q ⊥
        (fun x print => (m.map (printedBy print)).pieces x.1.padObjects first) m.items ⊤ :=
      fun m hm => Member.script
        (fun f hf => hfodder f (List.mem_append_left _ (List.mem_append_left _
          (List.mem_flatMap_of_mem hm hf))))
        (fun e he => hparts e (List.mem_append_left _ (List.mem_flatMap_of_mem hm he)))
        monotone_padObjects
    have hclauses := Clauses.script (fun f hf => hfodder f (by simp [fodders, hf]))
      fun e (he : e ∈ o.clauses.exprs) => hparts e (by simp [parts, he])
    simp only [map, pieces]
    refine conclude ((((((Script.mark _).append (printList_true hmembers)).append
      (markIf _ _)).append hclauses).append
      (.fodder hclose monotone_const monotone_padObjects)).append (.mark _)) ?_
    simp [items]
  | parens inner closeFodder =>
    have hclose := hfodder closeFodder (by simp [fodders])
    exact conclude ((((Script.mark _).append (plain (hparts inner (by simp [parts])))).append
      (fixed hclose _ _)).append (.mark _)) rfl
  | superIndex s =>
    have hdot := hfodder s.dotFodder (by simp [fodders])
    have haccess := script_printAccess (hfodder s.idFodder (by simp [fodders]))
      (fun e (he : e ∈ s.index.toList) => hparts e (by simp [parts, he])) s.id
    exact conclude (((Script.word _).append (fixed hdot _ _)).append haccess) rfl
  | error e | importCode e | importText e =>
    exact conclude ((Script.word _).append (crowded (hparts e (by simp [parts])))) rfl
  | unary op e =>
    exact conclude ((Script.mark _).append (plain (hparts e (by simp [parts])))) rfl
  | boolean | null | number | self | var => exact conclude (.word _) rfl
  | dollar => exact conclude (.mark _) rfl
  | string => exact conclude (.literal _) rfl

end Form

/-! ## Expressions -/

namespace Expr

/-- The text of an expression, if `print` gives those of its parts. -/
def piecesWith (options : LayoutOptions) (crowded : Bool) (print : Expr → Bool → List Piece)
    (e : Expr) : List Piece :=
  (if e.form.leftmost?.isNone then fill e.fodder crowded true else []) ++
    e.form.piecesWith options crowded print

/-- An expression is printed with the texts of its parts. -/
theorem pieces_eq_piecesWith (options : LayoutOptions) (e : Expr) (crowded : Bool) :
    e.pieces options crowded = e.piecesWith options crowded fun a => a.pieces options :=
  e.pieces_eq options crowded

/-- The script of an expression. It may follow a word where it is told so: either its own fodder is
in front, or it leaves this to the subexpression that it starts with. -/
theorem script {e : Expr} (hfodder : ∀ f ∈ e.fodder :: e.form.fodders, P f)
    (hparts : ∀ part ∈ e.form.parts, Q part) :
    Script P Q (fun x => x.2) (fun x print => e.piecesWith x.1 x.2 print) e.items ⊤ := by
  rw [List.forall_mem_cons] at hfodder
  have hform := e.form.script hfodder.2 hparts
  simp only [piecesWith, items]
  cases hleft : e.form.leftmost? with
  | none =>
    rw [hleft] at hform
    exact (separator hfodder.1 monotone_snd le_rfl).append hform
  | some part =>
    rw [hleft] at hform
    exact nil.append hform

end Expr

namespace Script

variable {s s' : Situation → Bool} {text : Text} {items : List (Item Expr)}

/-- The items of a script are as it says. -/
theorem forall_items (h : Script P Q s text items s') :
    (∀ f, .fodder f ∈ items → P f) ∧ ∀ a, .sub a ∈ items → Q a := by
  induction h with
  | nil | word | mark | literal | space | noBinds | padding => simp
  | fodder hf | separator hf => simp [hf]
  | sub ha => simp [ha]
  | append _ _ ih ih' =>
    simp only [List.mem_append, or_imp, forall_and]
    exact ⟨⟨ih.1, ih'.1⟩, ih.2, ih'.2⟩
  | weaken _ _ _ ih => exact ih

end Script

end JsonnetTree
