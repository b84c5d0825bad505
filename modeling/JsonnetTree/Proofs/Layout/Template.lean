import JsonnetTree.Proofs.Layout.Written

/-!
# Texts with holes

The printer never looks at the text of a subexpression; it only puts it somewhere. So the text of a
form is that of a template, with a hole for each subexpression that is written, in the order of
`Form.written`, however the subexpressions are printed (`Form.hasHoles`). A template is determined
by the texts that come from it (`Template.plug_injective`), so the order of the holes is that in
which the printer writes what stands in them.
-/

namespace JsonnetTree

/-! ## Templates -/

/-- A text with holes. A hole is for the text of an expression, and tells whether the text before it
is crowded. -/
abbrev Template := List (Piece ⊕ Expr × Bool)

namespace Template

/-- The text of a template whose holes are filled as `print` says. -/
def plug (print : Expr → Bool → List Piece) (template : Template) : List Piece :=
  template.flatMap (Sum.elim (fun piece => [piece]) fun hole => print hole.1 hole.2)

/-- The expressions that holes are for, in order. -/
def holes (template : Template) : List Expr :=
  template.filterMap (Sum.elim (fun _ => none) fun hole => some hole.1)

variable {print : Expr → Bool → List Piece} {template template' : Template}

/-- The empty template gives the empty text. -/
@[simp] theorem plug_nil : plug print [] = [] := rfl

/-- A piece is printed as it is. -/
@[simp] theorem plug_piece (piece : Piece) :
    plug print (.inl piece :: template) = piece :: template.plug print := rfl

/-- A hole is filled with the text of its expression. -/
@[simp] theorem plug_hole (e : Expr) (crowded : Bool) :
    plug print (.inr (e, crowded) :: template) = print e crowded ++ template.plug print := rfl

/-- Two templates are filled one after the other. -/
@[simp] theorem plug_append :
    plug print (template ++ template') = template.plug print ++ template'.plug print :=
  List.flatMap_append

/-- The first entry of a template is filled first. -/
theorem plug_cons (entry : Piece ⊕ Expr × Bool) (template : Template) :
    plug print (entry :: template) = plug print [entry] ++ template.plug print := by
  rw [← plug_append, List.singleton_append]

/-- A template without holes is its own text. -/
@[simp] theorem plug_map_inl (pieces : List Piece) :
    plug print (pieces.map Sum.inl) = pieces := by
  induction pieces with
  | nil => rfl
  | cons piece pieces ih => rw [List.map_cons, plug_piece, ih]

/-- The empty template has no holes. -/
@[simp] theorem holes_nil : holes [] = [] := rfl

/-- A piece is no hole. -/
@[simp] theorem holes_piece (piece : Piece) : holes (.inl piece :: template) = template.holes := rfl

/-- A hole comes before those that follow. -/
@[simp] theorem holes_hole (e : Expr) (crowded : Bool) :
    holes (.inr (e, crowded) :: template) = e :: template.holes := rfl

/-- The holes of two templates follow each other. -/
@[simp] theorem holes_append : holes (template ++ template') = template.holes ++ template'.holes :=
  List.filterMap_append

/-- A list of pieces has no holes. -/
@[simp] theorem holes_map_inl (pieces : List Piece) : holes (pieces.map Sum.inl) = [] := by
  induction pieces with
  | nil => rfl
  | cons piece pieces ih => rw [List.map_cons, holes_piece, ih]

/-- The first entry of a template is told by the texts that come from it. -/
theorem head_eq_of_plug_eq {entry entry' : Piece ⊕ Expr × Bool}
    (h : ∀ print, plug print (entry :: template) = plug print (entry' :: template')) :
    entry = entry' := by
  classical
  -- A hole is told from a piece, and from another hole, by filling it with another piece.
  have hother (piece : Piece) : ∃ other, other ≠ piece := by
    by_cases hpiece : piece = .noBinds
    · exact ⟨.mark "", by simp [hpiece]⟩
    · exact ⟨.noBinds, Ne.symm hpiece⟩
  rcases entry with piece | hole <;> rcases entry' with piece' | hole'
  · rw [(List.cons.inj (h fun _ _ => [])).1]
  · obtain ⟨other, hne⟩ := hother piece
    exact absurd (List.cons.inj (h fun _ _ => [other])).1.symm hne
  · obtain ⟨other, hne⟩ := hother piece'
    exact absurd (List.cons.inj (h fun _ _ => [other])).1 hne
  · by_contra hne
    have hfilled := h fun e crowded => if (e, crowded) = hole then [.noBinds] else [.mark ""]
    have hhole' : hole' ≠ hole := fun heq => hne (by rw [heq])
    rw [plug_hole, plug_hole, if_pos rfl, if_neg hhole'] at hfilled
    cases (List.cons.inj hfilled).1

/-- Templates that give the same texts are the same. -/
theorem plug_injective (h : ∀ print, plug print template = plug print template') :
    template = template' := by
  induction template generalizing template' with
  | nil =>
    cases template' with
    | nil => rfl
    | cons entry rest => rcases entry with piece | hole <;> cases h fun _ _ => [.noBinds]
  | cons entry rest ih =>
    cases template' with
    | nil => rcases entry with piece | hole <;> cases h fun _ _ => [.noBinds]
    | cons entry' rest' =>
      obtain rfl := head_eq_of_plug_eq h
      have hrest (print : Expr → Bool → List Piece) : plug print rest = plug print rest' := by
        have happend := h print
        rw [plug_cons entry rest, plug_cons entry rest'] at happend
        exact List.append_cancel_left happend
      rw [ih hrest]

end Template

/-! ## Texts that come from a template -/

/-- However expressions are printed, the text comes from one template, with holes for the given
expressions in order. -/
def HasHoles (text : (Expr → Bool → List Piece) → List Piece) (es : List Expr) : Prop :=
  ∃ template : Template, template.holes = es ∧ ∀ print, text print = template.plug print

namespace HasHoles

open Template

variable {text text' : (Expr → Bool → List Piece) → List Piece} {es es' : List Expr}

/-- A text without holes. -/
theorem fixed (pieces : List Piece) : HasHoles (fun _ => pieces) [] :=
  ⟨pieces.map .inl, holes_map_inl pieces, fun _ => (plug_map_inl pieces).symm⟩

/-- The text of an expression is a hole. -/
theorem hole (e : Expr) (crowded : Bool) : HasHoles (fun print => print e crowded) [e] :=
  ⟨[.inr (e, crowded)], rfl, fun print => by simp⟩

/-- Two texts with holes make one, with the holes of both. -/
protected theorem append (h : HasHoles text es) (h' : HasHoles text' es') :
    HasHoles (fun print => text print ++ text' print) (es ++ es') := by
  obtain ⟨template, rfl, htext⟩ := h
  obtain ⟨template', rfl, htext'⟩ := h'
  refine ⟨template ++ template', holes_append, fun print => ?_⟩
  simp only [htext, htext', plug_append]

/-- The holes may be listed in another way. -/
protected theorem congr (h : HasHoles text es) (hes : es = es') : HasHoles text es' :=
  hes ▸ h

/-- What is added without holes adds no holes. -/
theorem append_fixed (h : HasHoles text es) (pieces : List Piece) :
    HasHoles (fun print => text print ++ pieces) es := by
  simpa using h.append (fixed pieces)

/-- The template is the only one that gives the text. -/
theorem existsUnique (h : HasHoles text es) :
    ∃ template : Template, template.holes = es ∧
      ∀ template', (∀ print, text print = plug print template') ↔ template' = template := by
  obtain ⟨template, hholes, htext⟩ := h
  refine ⟨template, hholes, fun template' => ⟨fun htext' => ?_, fun heq => heq ▸ htext⟩⟩
  exact plug_injective fun print => (htext' print).symm.trans (htext print)

/-- Only the texts of the expressions in the holes matter. -/
theorem text_congr {print print' : Expr → Bool → List Piece} (h : HasHoles text es)
    (hagree : ∀ e ∈ es, print e = print' e) : text print = text print' := by
  obtain ⟨template, rfl, htext⟩ := h
  rw [htext, htext]
  clear htext
  induction template with
  | nil => rfl
  | cons entry rest ih =>
    rcases entry with piece | ⟨e, crowded⟩
    · rw [plug_piece, plug_piece, ih hagree]
    · rw [holes_hole, List.forall_mem_cons] at hagree
      rw [plug_hole, plug_hole, hagree.1, ih hagree.2]

/-- The holes of a text are filled with texts that have holes themselves. -/
protected theorem bind {inner : (Expr → Bool → List Piece) → Expr → Bool → List Piece}
    {holes : Expr → List Expr} (h : HasHoles text es)
    (hinner : ∀ e ∈ es, ∀ crowded, HasHoles (fun print => inner print e crowded) (holes e)) :
    HasHoles (fun print => text (inner print)) (es.flatMap holes) := by
  obtain ⟨template, rfl, htext⟩ := h
  simp only [htext]
  clear htext
  induction template with
  | nil => exact fixed []
  | cons entry rest ih =>
    rcases entry with piece | ⟨e, crowded⟩
    · exact (fixed [piece]).append (ih hinner)
    · rw [holes_hole, List.forall_mem_cons] at hinner
      exact (hinner.1 crowded).append (ih hinner.2)

end HasHoles

/-! ## The printer -/

open HasHoles Item

/-- A text has a hole for each subexpression in its script, in order, whatever the situation. -/
theorem Script.hasHoles {P : Fodder → Prop} {Q : Expr → Prop} {s s' : Situation → Bool}
    {text : Text} {items : List (Item Expr)} (h : Script P Q s text items s') (x : Situation) :
    HasHoles (text x) (subs items) := by
  induction h with
  | nil | word | mark | literal | space | noBinds | padding | fodder | separator =>
    exact HasHoles.fixed _
  | sub => exact hole _ _
  | append _ _ ih ih' => exact (ih.append ih').congr (subs_append _ _).symm
  | weaken _ _ _ ih => exact ih

/-- However the subexpressions of a form are printed, its text has a hole for each of those that it
writes, in order. -/
theorem Form.hasHoles (form : Form Expr) (options : LayoutOptions) (crowded : Bool) :
    HasHoles (form.piecesWith options crowded) form.written :=
  (form.script (P := fun _ => True) (Q := fun _ => True) (by simp) (by simp)).hasHoles
    (options, crowded)

/-- What is written is part of the form. -/
theorem Form.mem_parts_of_mem_written {form : Form Expr} {a : Expr} (h : a ∈ form.written) :
    a ∈ form.parts :=
  (form.script (P := fun _ => True) (by simp) fun _ hpart => hpart).forall_items.2 a (mem_subs.mp h)

end JsonnetTree
