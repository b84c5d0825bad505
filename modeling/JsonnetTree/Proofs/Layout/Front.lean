import JsonnetTree.Expr.Build
import JsonnetTree.Proofs.Layout.Items

/-!
# What stands in front of an expression

Whether the text before an expression is crowded matters only for the fodder in front of it. An
expression that starts with a subexpression leaves this fodder to the subexpression, and so on down
to the one that starts with a token (`Expr.front`). All forms on the way hand down whether the text
is crowded, except for tests in `super`: these are printed as if it always were.
-/

namespace JsonnetTree

variable {α : Type}

namespace Form

/-- Whether a form is a test in `super`. -/
def isInSuper : Form α → Bool
  | .inSuper _ => true
  | _ => false

/-- A change of the subexpressions makes no test in `super`. -/
@[simp]
theorem isInSuper_map {β : Type} (f : α → β) (form : Form α) :
    (form.map f).isInSuper = form.isInSuper := by
  cases form <;> rfl

/-- The subexpression that a form starts with is one of its parts. -/
theorem mem_parts_of_leftmost? {form : Form α} {a : α} (h : form.leftmost? = some a) :
    a ∈ form.parts := by
  cases form with
  | apply | applyBrace | binary | index | inSuper | slice =>
    obtain rfl := Option.some.inj h
    simp [parts]
  | _ => cases h

variable {form : Form Operand} (options : LayoutOptions)

/-- A form that starts with a subexpression prints it first, and what follows does not depend on
whether the text before is crowded. -/
theorem exists_pieces_of_leftmost? {o : Operand} (h : form.leftmost? = some o) :
    ∃ rest, ∀ crowded, form.pieces options crowded = o.2 (crowded || form.isInSuper) ++ rest := by
  cases form with
  | apply | applyBrace | binary | index | slice =>
    obtain rfl := Option.some.inj h
    apply Exists.intro
    intro crowded
    simp only [pieces, isInSuper, Bool.or_false, List.append_assoc]
    rfl
  | inSuper i =>
    obtain rfl := Option.some.inj h
    apply Exists.intro
    intro crowded
    simp only [pieces, isInSuper, Bool.or_true, List.append_assoc]
    rfl
  | _ => cases h

/-- A form that starts with a token is printed the same in crowded text. -/
theorem pieces_of_leftmost?_eq_none (h : form.leftmost? = none) (crowded crowded' : Bool) :
    form.pieces options crowded = form.pieces options crowded' := by
  cases form with
  | apply | applyBrace | binary | index | inSuper | slice => cases h
  | locals binds body => cases binds <;> rfl
  | _ => rfl

end Form

namespace Expr

variable {e part : Expr}

/-- The expression whose fodder stands in front of an expression: the last one on the way from an
expression to the subexpression that it starts with. -/
def front : Expr → Expr :=
  para fun e form => (form.leftmost?.map (·.2)).getD e

/-- Whether the way to the front goes through a test in `super`. -/
def frontInSuper : Expr → Bool :=
  para fun e form => e.form.isInSuper || (form.leftmost?.map (·.2)).getD false

/-- The front of an expression is that of the subexpression it starts with. -/
theorem front_of_leftmost? (h : e.form.leftmost? = some part) : e.front = part.front := by
  rw [front, para_eq]
  simp [h]

/-- An expression that starts with a token is its own front. -/
theorem front_of_leftmost?_eq_none (h : e.form.leftmost? = none) : e.front = e := by
  rw [front, para_eq]
  simp [h]

/-- The way to the front goes on with the subexpression that an expression starts with. -/
theorem frontInSuper_of_leftmost? (h : e.form.leftmost? = some part) :
    e.frontInSuper = (e.form.isInSuper || part.frontInSuper) := by
  rw [frontInSuper, para_eq]
  simp [h]

/-- The way to the front is empty for an expression that starts with a token. -/
theorem frontInSuper_of_leftmost?_eq_none (h : e.form.leftmost? = none) :
    e.frontInSuper = false := by
  have hform : e.form.isInSuper = false := by
    cases hform : e.form with
    | inSuper i => simp [hform, Form.leftmost?] at h
    | _ => rfl
  rw [frontInSuper, para_eq]
  simp [h, hform]

/-- An expression is printed as the fodder at its front, followed by a text that is the same in
crowded text. -/
theorem exists_pieces_eq (options : LayoutOptions) (e : Expr) :
    ∃ rest, ∀ crowded,
      e.pieces options crowded = fill e.front.fodder (crowded || e.frontInSuper) true ++ rest := by
  induction e using induct with
  | h e ih =>
    let form := e.form.map fun part => (part, part.pieces options)
    cases hleft : e.form.leftmost? with
    | none =>
      have hform : form.leftmost? = none := by simp [form, hleft]
      refine ⟨form.pieces options false, fun crowded => ?_⟩
      rw [pieces_eq, Form.pieces_of_leftmost?_eq_none options hform crowded false,
        front_of_leftmost?_eq_none hleft, frontInSuper_of_leftmost?_eq_none hleft, hleft,
        Bool.or_false]
      rfl
    | some part =>
      obtain ⟨rest, hrest⟩ := ih part (Form.mem_parts_of_leftmost? hleft)
      have hform : form.leftmost? = some (part, part.pieces options) := by simp [form, hleft]
      obtain ⟨more, hmore⟩ := Form.exists_pieces_of_leftmost? options hform
      refine ⟨rest ++ more, fun crowded => ?_⟩
      rw [pieces_eq, hmore, front_of_leftmost? hleft, frontInSuper_of_leftmost? hleft, hleft]
      simp [form, hrest, Bool.or_assoc]

/-- The text of an expression is the fodder at its front followed by a text that does not depend on
whether the text before is crowded. So without this fodder, an expression in crowded text starts
with one space more, unless its front is inside a test in `super`. -/
theorem pieces_front (options : LayoutOptions) (e : Expr) :
    ∃ rest,
      (∀ crowded, e.pieces options crowded =
        fill e.front.fodder (crowded || e.frontInSuper) true ++ rest) ∧
      (e.front.fodder = [] →
        e.pieces options true = .spaces 1 :: rest ∧
          e.pieces options false = if e.frontInSuper then .spaces 1 :: rest else rest) := by
  obtain ⟨rest, hrest⟩ := exists_pieces_eq options e
  refine ⟨rest, hrest, fun hfodder => ⟨?_, ?_⟩⟩
  · rw [hrest, hfodder, Bool.true_or]
    rfl
  · rw [hrest, hfodder, Bool.false_or]
    cases e.frontInSuper <;> rfl

/-- A sum that starts with an access by name takes one space in front in crowded text, and none
elsewhere. -/
theorem pieces_front_sum :
    let e := Build.binary (Build.indexId (Build.var "a") "b") .plus (Build.number "1")
    e.front.fodder = [] ∧ e.frontInSuper = false ∧
      ∃ rest, Piece.render rest = "a.b + 1" ∧ e.pieces {} true = .spaces 1 :: rest ∧
        e.pieces {} false = rest := by
  intro e
  have hfodder : e.front.fodder = [] := rfl
  have hsuper : e.frontInSuper = false := rfl
  obtain ⟨rest, -, hrest⟩ := pieces_front {} e
  obtain ⟨htrue, hfalse⟩ := hrest hfodder
  rw [hsuper, if_neg Bool.false_ne_true] at hfalse
  refine ⟨hfodder, hsuper, rest, ?_, htrue, hfalse⟩
  rw [← hfalse]
  decide +kernel

/-- A test in `super` starts with a space in text that is not crowded, too, although the string in
front of it has no fodder. No text follows the fodder at its front in both cases. -/
theorem pieces_front_inSuper :
    let e : Expr := .ofForm (.inSuper ⟨Build.string "a", [], []⟩)
    e.front = Build.string "a" ∧ Piece.render (fill e.front.fodder false true) = "" ∧
      Piece.render (e.pieces {} false) = " \"a\" in super" ∧
      ¬ ∃ text, ∀ crowded, Piece.render (e.pieces {} crowded) =
        Piece.render (fill e.front.fodder crowded true) ++ text := by
  intro e
  have hfalse : Piece.render (e.pieces {} false) = " \"a\" in super" := by decide +kernel
  have htrue : Piece.render (e.pieces {} true) = " \"a\" in super" := by decide +kernel
  have hspace : Piece.render (fill e.front.fodder true true) = " " := by decide +kernel
  have hnone : Piece.render (fill e.front.fodder false true) = "" := by decide +kernel
  refine ⟨rfl, hnone, hfalse, ?_⟩
  rintro ⟨text, htext⟩
  have hshort := htext true
  have hlong := htext false
  rw [htrue, hspace] at hshort
  rw [hfalse, hnone] at hlong
  have hlength := congrArg String.length (hshort.symm.trans hlong)
  simp at hlength

end Expr

end JsonnetTree
