import JsonnetTree.Proofs.Layout.Script
import JsonnetTree.Proofs.Outcome
import Mathlib.Data.List.TakeWhile

/-!
# Comments and halts in printed text

What is of note in a text are its comments and the places where printing stops because there is no
name to bind. The notes in the text of an expression are those of its items
(`Expr.notes_pieces`). Whether a text is printed to its end is told by its notes and by the
length of its blanks (`Piece.halted?_eq_none_iff`).
-/

namespace JsonnetTree

variable {α β : Type}

/-! ## Notes -/

/-- What is of note in a piece of text: a comment, or that printing stops. -/
@[simp]
def Piece.note? : Piece → Option (Option String)
  | .comment text => some (some text)
  | .noBinds => some none
  | .word _ | .mark _ | .literal _ | .spaces _ | .newlines _ => none

/-- The notes in a list of pieces, in order. -/
def Piece.notes (ps : List Piece) : List (Option String) :=
  ps.filterMap note?

/-- The comments that are shown of an element of fodder: only a paragraph shows more than one. -/
def FodderElement.shown (element : FodderElement) : List String :=
  match element.kind with
  | .paragraph => element.comment
  | .lineEnd | .interstitial => element.comment.head?.toList

/-- The comments that are shown of fodder. -/
def Fodder.shown (f : Fodder) : List String :=
  f.flatMap (·.shown)

/-- No fodder shows no comments. -/
@[simp]
theorem Fodder.shown_nil : Fodder.shown [] = [] := rfl

namespace Piece

/-- The empty text has no notes. -/
@[simp]
theorem notes_nil : notes [] = [] := rfl

/-- The note of the first piece comes first. -/
@[simp]
theorem notes_cons (p : Piece) (ps : List Piece) :
    notes (p :: ps) = p.note?.toList ++ notes ps := by
  cases p <;> rfl

/-- The notes of two texts follow each other. -/
@[simp]
theorem notes_append (ps qs : List Piece) : notes (ps ++ qs) = notes ps ++ notes qs :=
  List.filterMap_append ..

/-- The lines of a paragraph are all shown. -/
@[simp]
theorem notes_commentLines (indent : Nat) (first : Bool) (lines : List String) :
    notes (commentLines indent first lines) = lines.map some := by
  induction lines generalizing first with
  | nil => rfl
  | cons line rest ih =>
    rw [commentLines, notes_append, notes_cons, notes_cons, ih]
    split <;> simp

/-- An element shows its first line at most, outside paragraphs. -/
@[simp]
theorem notes_firstComment (element : FodderElement) :
    notes (firstComment element) = element.comment.head?.toList.map some := by
  unfold firstComment
  cases element.comment.head? <;> simp

/-- The notes of printed fodder are the comments that it shows, whatever stands around it. -/
theorem notes_fillFrom (lastIndent : Nat) (crowded separate : Bool) (f : Fodder) :
    notes (fillFrom lastIndent crowded separate f) = (Fodder.shown f).map some := by
  induction f generalizing lastIndent crowded with
  | nil =>
    unfold fillFrom
    split <;> simp [Fodder.shown]
  | cons element rest ih =>
    unfold fillFrom
    cases hkind : element.kind with
    | paragraph => simp [ih, Fodder.shown, FodderElement.shown, hkind]
    | lineEnd =>
      cases hcomment : element.comment <;>
        simp [ih, Fodder.shown, FodderElement.shown, hkind, hcomment]
    | interstitial =>
      cases crowded <;> simp [ih, Fodder.shown, FodderElement.shown, hkind]

/-- Fodder is of note for the comments that it shows. -/
@[simp]
theorem notes_fill (f : Fodder) (crowded separate : Bool) :
    notes (fill f crowded separate) = (Fodder.shown f).map some :=
  notes_fillFrom 0 crowded separate f

end Piece

/-! ## The printer follows the items -/

/-- The notes of an item, if `g` gives those of a subexpression. -/
def Item.notes (g : α → List (Option String)) : Item α → List (Option String)
  | .fodder f => (Fodder.shown f).map some
  | .sub a => g a
  | .noBinds => [none]

/-- The notes of an item whose subexpression is replaced. -/
@[simp]
theorem Item.notes_map (f : α → β) (g : β → List (Option String)) (i : Item α) :
    (i.map f).notes g = i.notes (fun a => g (f a)) := by
  cases i <;> rfl

/-- The notes of a text are those of the items in its script. -/
theorem Script.notes {P : Fodder → Prop} {Q : Expr → Prop} {s s' : Situation → Bool} {text : Text}
    {items : List (Item Expr)} {print : Expr → Bool → List Piece} {g : Expr → List (Option String)}
    (h : Script P Q s text items s') (hg : ∀ a, Q a → ∀ crowded, Piece.notes (print a crowded) = g a)
    (x : Situation) : Piece.notes (text x print) = items.flatMap (Item.notes g) := by
  induction h with
  | nil | word | mark | literal | space | noBinds => rfl
  | padding => simp
  | fodder | separator => simp [Item.notes]
  | sub ha => simp [Item.notes, hg _ ha]
  | append _ _ ih ih' => rw [Piece.notes_append, ih, ih', List.flatMap_append]
  | weaken _ _ _ ih => exact ih

/-- The notes in the text of a form, if the notes in the texts of its parts are known. -/
theorem Form.notes_piecesWith {options : LayoutOptions} {crowded : Bool} {form : Form Expr}
    {print : Expr → Bool → List Piece} {g : Expr → List (Option String)}
    (h : ∀ a crowded, Piece.notes (print a crowded) = g a) :
    Piece.notes (form.piecesWith options crowded print) = form.items.flatMap (Item.notes g) := by
  have hscript := form.script (P := fun _ => True) (Q := fun _ => True) (by simp) (by simp)
  exact hscript.notes (fun a _ => h a) (options, crowded)

namespace Expr

/-- What is of note in the text of an expression: the comments that are shown, in order, and
the places where printing stops. -/
def notes : Expr → List (Option String) :=
  para fun e form =>
    (if e.form.leftmost?.isNone then (Fodder.shown e.fodder).map some else []) ++
      form.items.flatMap (Item.notes (·.2))

/-- The notes of an expression are those of its own fodder and of its items. -/
theorem notes_eq (e : Expr) :
    e.notes = (if e.form.leftmost?.isNone then (Fodder.shown e.fodder).map some else []) ++
      e.form.items.flatMap (Item.notes notes) := by
  rw [notes, para_eq]
  simp [Form.items_map, List.flatMap_map]

/-- The notes of a printed expression depend neither on the options nor on what stands before
it. -/
theorem notes_pieces (options : LayoutOptions) (e : Expr) (crowded : Bool) :
    Piece.notes (e.pieces options crowded) = e.notes := by
  induction e using induct generalizing crowded with
  | h e ih =>
    have hscript := e.script (P := fun _ => True) (by simp) fun part hpart => hpart
    rw [pieces_eq_piecesWith, hscript.notes ih (options, crowded), items, List.flatMap_append,
      notes_eq]
    congr 1
    split <;> simp [Item.notes]

end Expr

/-- The notes of a printed tree are those of its root and of the fodder at its end. -/
theorem Tree.notes_pieces (options : LayoutOptions) (t : Tree) :
    Piece.notes (t.pieces options) = t.root.notes ++ (Fodder.shown t.finalFodder).map some := by
  simp [pieces, Expr.notes_pieces]

/-! ## Texts that are printed to their end -/

namespace Piece

variable {ps : List Piece}

/-- Only one kind of piece has printing stop for want of a name. -/
theorem halt?_eq_noBinds_iff {p : Piece} : p.halt? = some .noBinds ↔ p = .noBinds := by
  cases p <;> simp [halt?]

/-- The place where printing stops for want of a name is of note. -/
theorem none_mem_notes_iff : none ∈ notes ps ↔ .noBinds ∈ ps := by
  induction ps with
  | nil => simp
  | cons p rest ih => cases p <;> simp [ih]

/-- Pieces are printed to their end if none has printing stop for want of a name, and no run of
blanks is too long. -/
theorem halted?_eq_none_iff :
    halted? ps = none ↔ none ∉ notes ps ∧ ∀ p ∈ ps, p.halt? ≠ some .overlong := by
  rw [halted?, List.findSome?_eq_none_iff, none_mem_notes_iff]
  constructor
  · intro h
    refine ⟨fun hnone => ?_, fun p hp => by simp [h p hp]⟩
    cases h _ hnone
  · rintro ⟨hnone, hruns⟩ p hp
    cases hhalt : p.halt? with
    | none => rfl
    | some halt =>
      cases halt with
      | noBinds => exact absurd (halt?_eq_noBinds_iff.mp hhalt ▸ hp) hnone
      | overlong => exact absurd hhalt (hruns p hp)

/-- Pieces that do not break off are printed to their end. -/
theorem render_of_halted?_eq_none (h : halted? ps = none) :
    render ps = String.ofList (ps.flatMap chars) := by
  rw [halted?, List.findSome?_eq_none_iff] at h
  rw [render, List.takeWhile_eq_self_iff.mpr fun p hp => by rw [h p hp]; rfl]

end Piece

namespace Tree

variable {t : Tree} {options : LayoutOptions} {limit : Nat} {text : String}

/-- A tree that is no deeper than the limit is printed, unless its pieces break off. -/
theorem print_of_checkDepth (hdepth : t.root.checkDepth limit = .ok ()) (options : LayoutOptions) :
    t.print options limit =
      match Piece.halted? (t.pieces options) with
      | some halt => .error (.halted halt)
      | none => .ok (Piece.render (t.pieces options)) := by
  rw [print, hdepth]
  rfl

/-- A tree that is printed is printed to its end. -/
theorem print_eq_ok (h : t.print options limit = .ok text) :
    none ∉ Piece.notes (t.pieces options) ∧
      text = String.ofList ((t.pieces options).flatMap Piece.chars) := by
  obtain ⟨⟨⟩, hdepth, -⟩ := Outcome.bind_eq_ok h
  rw [print_of_checkDepth (Outcome.mapError_eq_ok hdepth)] at h
  cases hhalted : Piece.halted? (t.pieces options) with
  | some halt =>
    rw [hhalted] at h
    cases h
  | none =>
    rw [hhalted] at h
    rw [← Except.ok.inj h]
    exact ⟨(Piece.halted?_eq_none_iff.mp hhalted).1, Piece.render_of_halted?_eq_none hhalted⟩

end Tree

end JsonnetTree
