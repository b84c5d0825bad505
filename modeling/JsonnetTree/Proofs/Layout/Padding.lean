import JsonnetTree.Expr.Build
import JsonnetTree.Proofs.Layout.Script

/-!
# Layout options add spaces

The options of the printer decide where brackets are padded. They reach the text through the two
switches of `fill`, and a switch that is set can only add spaces. So the printer is run twice, side
by side, with more switches set in the second run: at every place the second text is the first one
with spaces added (`Piece.Padded`).
-/

namespace JsonnetTree

/-! ## Added spaces -/

/-- A text is another one with some of its spaces left out. -/
inductive SpacesDropped : List Char → List Char → Prop
  | nil : SpacesDropped [] []
  | keep (c : Char) {cs ds : List Char} (h : SpacesDropped cs ds) :
      SpacesDropped (c :: cs) (c :: ds)
  | drop {cs ds : List Char} (h : SpacesDropped cs ds) : SpacesDropped cs (' ' :: ds)

namespace SpacesDropped

variable {cs ds : List Char}

/-- The same text may stand in front. -/
theorem append_left (h : SpacesDropped cs ds) (front : List Char) :
    SpacesDropped (front ++ cs) (front ++ ds) := by
  induction front with
  | nil => exact h
  | cons c rest ih => exact .keep c ih

end SpacesDropped

/-- Pieces are other ones with some of their spaces left out. -/
inductive Piece.Padded : List Piece → List Piece → Prop
  | nil : Padded [] []
  | keep (p : Piece) {ps qs : List Piece} (h : Padded ps qs) : Padded (p :: ps) (p :: qs)
  | pad {ps qs : List Piece} (h : Padded ps qs) : Padded ps (.spaces 1 :: qs)

namespace Piece.Padded

variable {ps ps' qs qs' : List Piece}

/-- Nothing need be left out. -/
@[refl]
theorem refl (ps : List Piece) : Padded ps ps := by
  induction ps with
  | nil => exact .nil
  | cons p rest ih => exact .keep p ih

/-- Spaces may be left out of two texts that follow each other. -/
@[gcongr]
theorem append (h : Padded ps qs) (h' : Padded ps' qs') : Padded (ps ++ ps') (qs ++ qs') := by
  induction h with
  | nil => exact h'
  | keep p _ ih => exact .keep p ih
  | pad _ ih => exact .pad ih

/-- Added spaces do not decide whether pieces can be printed to their end. -/
theorem halted?_eq (h : Padded ps qs) : halted? ps = halted? qs := by
  induction h with
  | nil => rfl
  | keep p _ ih =>
    cases hhalt : p.halt? with
    | none => simpa [halted?, hhalt] using ih
    | some halt => simp [halted?, hhalt]
  | pad _ ih => exact ih

/-- What can be printed of the first pieces is what can be printed of the second ones, with spaces
left out. -/
theorem spacesDropped_render (h : Padded ps qs) :
    SpacesDropped (render ps).toList (render qs).toList := by
  simp only [render, String.toList_ofList]
  induction h with
  | nil => exact .nil
  | keep p _ ih =>
    -- Nothing is printed after the place where printing stops.
    cases hhalt : p.halt? with
    | some halt => simpa [hhalt] using .nil
    | none => simpa [hhalt] using ih.append_left p.chars
  | pad _ ih => exact .drop ih

end Piece.Padded

/-! ## Fodder -/

open Piece

variable {crowded crowded' separate separate' : Bool}

/-- A space that stands on a condition may be left out on a stronger one. -/
theorem padded_space (h : crowded ≤ crowded') :
    Padded (if crowded then [.spaces 1] else []) (if crowded' then [.spaces 1] else []) := by
  cases crowded with
  | false =>
    cases crowded' with
    | false => exact .nil
    | true => exact .pad .nil
  | true =>
    rw [h rfl]

/-- Both switches of printed fodder add spaces. -/
theorem padded_fillFrom (f : Fodder) (lastIndent : Nat) (hcrowded : crowded ≤ crowded')
    (hseparate : separate ≤ separate') :
    Padded (fillFrom lastIndent crowded separate f) (fillFrom lastIndent crowded' separate' f) := by
  induction f generalizing lastIndent crowded crowded' with
  | nil =>
    have hboth : (separate && crowded) ≤ (separate' && crowded') := inf_le_inf hseparate hcrowded
    exact padded_space hboth
  | cons element rest ih =>
    -- A line break leaves both runs uncrowded.
    have hrest (indent : Nat) := ih indent (le_refl false)
    simp only [fillFrom]
    cases element.kind with
    | paragraph =>
      simp only
      gcongr
      exact .keep _ (.keep _ (hrest _))
    | lineEnd =>
      simp only
      gcongr
      exact .keep _ (.keep _ (hrest _))
    | interstitial =>
      have hspace := padded_space hcrowded
      simp only
      gcongr
      exact ih lastIndent (le_refl true)

/-- Fodder between two tokens has spaces added where more switches are set. -/
theorem padded_fill (f : Fodder) (hcrowded : crowded ≤ crowded')
    (hseparate : separate ≤ separate') :
    Padded (fill f crowded separate) (fill f crowded' separate') :=
  padded_fillFrom f 0 hcrowded hseparate

/-! ## Two runs side by side -/

/-- A text is padded where more switches are set, if the texts of the subexpressions are. -/
theorem Script.padded {P : Fodder → Prop} {Q : Expr → Prop} {s s' : Situation → Bool}
    {text : Text} {items : List (Item Expr)} {print print' : Expr → Bool → List Piece}
    (h : Script P Q s text items s')
    (hprint : ∀ a, Q a → ∀ ⦃crowded crowded'⦄, crowded ≤ crowded' →
      Padded (print a crowded) (print' a crowded')) {x x' : Situation} (hx : x ≤ x') :
    Padded (text x print) (text x' print') := by
  induction h with
  | nil | word | mark | literal | space | noBinds => exact .refl _
  | padding hcrowded hseparate | fodder _ hcrowded hseparate =>
    exact padded_fill _ (hcrowded hx) (hseparate hx)
  | separator _ hcrowded => exact padded_fill _ (hcrowded hx) le_rfl
  | sub ha hcrowded => exact hprint _ ha (hcrowded hx)
  | append _ _ ih ih' => exact ih.append ih'
  | weaken _ _ _ ih => exact ih

/-! ## Whole expressions -/

namespace Expr

variable {options options' : LayoutOptions}

/-- The text of an expression is padded when more switches are set. -/
theorem padded_pieces (harrays : options.padArrays ≤ options'.padArrays)
    (hobjects : options.padObjects ≤ options'.padObjects) (e : Expr)
    (hcrowded : crowded ≤ crowded') :
    Padded (e.pieces options crowded) (e.pieces options' crowded') := by
  induction e using induct generalizing crowded crowded' with
  | h e ih =>
    have hscript := e.script (P := fun _ => True) (by simp) fun part hpart => hpart
    have hmore : ((options, crowded) : Situation) ≤ (options', crowded') :=
      ⟨⟨harrays, hobjects⟩, hcrowded⟩
    rw [pieces_eq_piecesWith, pieces_eq_piecesWith]
    exact hscript.padded (fun part hpart _ _ => ih part hpart) hmore

/-- With more switches set, an expression can be printed to its end if and only if it could before,
and its text was the new one with some of its spaces left out. -/
theorem render_pieces_padded (harrays : options.padArrays → options'.padArrays)
    (hobjects : options.padObjects → options'.padObjects) (e : Expr) (crowded : Bool) :
    isBroken (e.pieces options crowded) = isBroken (e.pieces options' crowded) ∧
      SpacesDropped (render (e.pieces options crowded)).toList
        (render (e.pieces options' crowded)).toList := by
  have hpadded := padded_pieces harrays hobjects e (le_refl crowded)
  exact ⟨congrArg Option.isSome hpadded.halted?_eq, hpadded.spacesDropped_render⟩

/-- An array of an object with comments at the closing brackets, printed without and with both
switches set. A line end takes no space, and a comment inside a line takes one on each side. -/
theorem render_pieces_padded_array :
    let field := Build.fieldId "a" .inherit (Build.number "1")
    let object : Expr := .ofForm (.object ⟨[field], false, [⟨.lineEnd, 0, 2, ["// b"]⟩]⟩)
    let e : Expr := .ofForm (.array ⟨[⟨object, []⟩], false, [⟨.interstitial, 0, 0, ["/* c */"]⟩]⟩)
    let tight := e.pieces ⟨false, false⟩ true
    let wide := e.pieces ⟨true, true⟩ true
    render tight = " [\x7ba: 1  // b\n  \x7d /* c */]" ∧
      render wide = " [ \x7b a: 1  // b\n  \x7d /* c */ ]" ∧
      isBroken tight = isBroken wide ∧
      SpacesDropped (render tight).toList (render wide).toList := by
  intro field object e tight wide
  have htight : render tight = " [\x7ba: 1  // b\n  \x7d /* c */]" := by decide +kernel
  have hwide : render wide = " [ \x7b a: 1  // b\n  \x7d /* c */ ]" := by decide +kernel
  obtain ⟨hbroken, hdropped⟩ :=
    @render_pieces_padded ⟨false, false⟩ ⟨true, true⟩ (by decide) (by decide) e true
  exact ⟨htight, hwide, hbroken, hdropped⟩

end Expr

end JsonnetTree
