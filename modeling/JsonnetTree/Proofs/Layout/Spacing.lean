import JsonnetTree.Proofs.Layout.Notes
import Mathlib.Algebra.Ring.Nat

/-!
# Spaces and line breaks of printed fodder

Fodder is printed the same everywhere but for a space at each end. The one in front depends on
whether the text before is crowded, and the one at the end on whether a space is asked for there;
both can only stand beside a comment inside a line, or where there is no fodder at all
(`render_fill`). The line breaks are those that the elements of the fodder stand for. All this is
said of elements that can be printed (`FodderElement.isPrintable`); the others ask for more line
breaks or deeper indentation than any text can hold.
-/

namespace JsonnetTree

/-- Whether the line breaks and the indentation that an element stands for are short enough to be
printed. -/
def FodderElement.isPrintable (e : FodderElement) : Bool :=
  match e.kind with
  | .interstitial => true
  | .lineEnd => e.blanks.toNat < maxTextBytes && e.indent.toNat ≤ maxTextBytes
  | .paragraph => e.blanks.toNat ≤ maxTextBytes && e.indent.toNat ≤ maxTextBytes

/-! ## Spaces at the ends -/

/-- Whether the text after fodder is crowded, given whether the text before is. -/
def Fodder.crowdedAfter (crowded : Bool) (f : Fodder) : Bool :=
  (f.getLast?.map fun e => decide (e.kind = .interstitial)).getD crowded

/-- Without fodder the text stays as crowded as it is. -/
@[simp]
theorem Fodder.crowdedAfter_nil (crowded : Bool) : Fodder.crowdedAfter crowded [] = crowded := rfl

/-- The line breaks of a line end are counted without a wrap where it can be printed. -/
theorem toNat_blanks_add_one {e : FodderElement} (he : e.isPrintable = true)
    (hkind : e.kind = .lineEnd) : (e.blanks + 1).toNat = e.blanks.toNat + 1 := by
  have hblanks : e.blanks.toNat < maxTextBytes := by
    simp [FodderElement.isPrintable, hkind] at he
    exact he.1
  rw [UInt64.toNat_add, Nat.mod_eq_of_lt]
  · rfl
  · exact Nat.lt_trans (Nat.add_lt_add_right hblanks 1) (by decide)

/-- Blanks that are short enough are printed. -/
theorem Piece.halt?_of_le {count : Nat} (h : count ≤ maxTextBytes) :
    (spaces count).halt? = none ∧ (newlines count).halt? = none := by
  simp [halt?, h]

/-- The lines of a paragraph are printed if their indentation is. -/
theorem halt?_commentLines {indent : Nat} (hindent : indent ≤ maxTextBytes) (first : Bool)
    (lines : List String) : ∀ p ∈ commentLines indent first lines, p.halt? = none := by
  induction lines generalizing first with
  | nil => simp [commentLines]
  | cons line rest ih =>
    simp only [commentLines, List.forall_mem_append, List.forall_mem_cons]
    refine ⟨?_, rfl, (Piece.halt?_of_le (by decide)).2, ih false⟩
    split
    · simp
    · simpa using (Piece.halt?_of_le hindent).1

/-- Printing does not stop in fodder whose elements can be printed. -/
theorem halt?_fillFrom {lastIndent : Nat} (crowded separate : Bool) {f : Fodder}
    (hlast : lastIndent ≤ maxTextBytes) (hf : ∀ e ∈ f, e.isPrintable = true) :
    ∀ p ∈ fillFrom lastIndent crowded separate f, p.halt? = none := by
  have hspace (b : Bool) : ∀ p ∈ if b then [Piece.spaces 1] else [], p.halt? = none := by
    cases b <;> decide
  have hfirst (e : FodderElement) : ∀ p ∈ firstComment e, p.halt? = none := by
    unfold firstComment
    cases e.comment.head? <;> simp [Piece.halt?]
  induction f generalizing lastIndent crowded with
  | nil => exact hspace _
  | cons e rest ih =>
    rw [List.forall_mem_cons] at hf
    have he := hf.1
    cases hkind : e.kind with
    | paragraph =>
      obtain ⟨hblanks, hindent⟩ : e.blanks.toNat ≤ maxTextBytes ∧ e.indent.toNat ≤ maxTextBytes := by
        simpa [FodderElement.isPrintable, hkind] using he
      simp only [fillFrom, hkind, List.forall_mem_append, List.forall_mem_cons]
      exact ⟨halt?_commentLines hlast true e.comment, (Piece.halt?_of_le hblanks).2,
        (Piece.halt?_of_le hindent).1, ih false hindent hf.2⟩
    | lineEnd =>
      obtain ⟨hblanks, hindent⟩ : e.blanks.toNat < maxTextBytes ∧ e.indent.toNat ≤ maxTextBytes := by
        simpa [FodderElement.isPrintable, hkind] using he
      simp only [fillFrom, hkind, toNat_blanks_add_one he hkind, List.forall_mem_append,
        List.forall_mem_cons]
      refine ⟨?_, (Piece.halt?_of_le hblanks).2, (Piece.halt?_of_le hindent).1,
        ih false hindent hf.2⟩
      split
      · simp
      · exact List.forall_mem_cons.mpr ⟨(Piece.halt?_of_le (by decide)).1, hfirst e⟩
    | interstitial =>
      simp only [fillFrom, hkind, List.forall_mem_append]
      exact ⟨⟨hspace crowded, hfirst e⟩, ih true hlast hf.2⟩

/-- Printing does not stop between two tokens where the fodder can be printed. -/
theorem halt?_fill {f : Fodder} (hf : ∀ e ∈ f, e.isPrintable = true) (crowded separate : Bool) :
    ∀ p ∈ fill f crowded separate, p.halt? = none :=
  halt?_fillFrom crowded separate (Nat.zero_le _) hf

end JsonnetTree
