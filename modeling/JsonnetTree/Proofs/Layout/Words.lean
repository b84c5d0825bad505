import JsonnetTree.Expr.Build
import JsonnetTree.Proofs.Layout.Script

/-!
# Words stay apart

Two words that are printed one after the other must have a blank between them. Pieces are read from
left to right, and it is kept in mind whether the text so far ends in a word (`Piece.Apart`). The
switch `crowded` of the printer is a promise about this state: what is printed in crowded text may
follow a word, and all else is printed right after a bracket, an operator or another mark. The
fodder between two words keeps them apart unless nothing is printed for its paragraphs and line ends
(`Fodder.separates`).
-/

namespace JsonnetTree

/-! ## Pieces one after the other -/

namespace Piece

/-- Whether a piece is a token. -/
def isToken : Piece → Bool
  | .word _ | .mark _ | .literal _ => true
  | .comment _ | .spaces _ | .newlines _ | .noBinds => false

/-- Whether a piece is a blank: spaces or line breaks, at least one of them. -/
def isBlank : Piece → Bool
  | .spaces count | .newlines count => count != 0
  | .word _ | .mark _ | .literal _ | .comment _ | .noBinds => false

/-- No word follows a word without a blank between them. `afterWord` says whether the text before
ends in a word. -/
def Apart (afterWord : Bool) : List Piece → Prop
  | [] => True
  | p :: rest =>
    match p with
    | .word _ => afterWord = false ∧ Apart true rest
    | .mark _ | .literal _ => Apart false rest
    | .comment _ | .spaces _ | .newlines _ | .noBinds => Apart (afterWord && !p.isBlank) rest

section Apart

variable {afterWord afterWord' : Bool} {ps qs : List Piece}

/-- Any piece but a token leaves the text at the end of a word unless it is a blank. -/
theorem apart_cons_of_not_isToken {p : Piece} (h : p.isToken = false) :
    Apart afterWord (p :: ps) ↔ Apart (afterWord && !p.isBlank) ps := by
  cases p with
  | word | mark | literal => cases h
  | comment | spaces | newlines | noBinds => exact .rfl

/-- Words that stay apart after a word stay apart elsewhere, too. -/
theorem Apart.elsewhere (h : Apart true ps) : Apart false ps := by
  induction ps with
  | nil => trivial
  | cons p rest ih =>
    cases hp : p.isToken with
    | true =>
      cases p with
      | word => cases h.1
      | mark | literal => exact h
      | comment | spaces | newlines | noBinds => cases hp
    | false =>
      rw [apart_cons_of_not_isToken hp] at h ⊢
      cases hblank : p.isBlank with
      | true => simpa [hblank] using h
      | false => exact ih (by simpa [hblank] using h)

/-- Words that stay apart stay apart where less is said of the text before. -/
theorem Apart.anti (h : Apart afterWord ps) (hle : afterWord' ≤ afterWord) :
    Apart afterWord' ps := by
  cases afterWord with
  | false =>
    rw [Bool.eq_false_of_le_false hle]
    exact h
  | true =>
    cases afterWord' with
    | false => exact h.elsewhere
    | true => exact h

/-- What stays apart after a word may follow anything. -/
theorem Apart.append (h : Apart afterWord ps) (h' : Apart true qs) :
    Apart afterWord (ps ++ qs) := by
  induction ps generalizing afterWord with
  | nil => exact h'.anti (Bool.le_true _)
  | cons p rest ih =>
    cases p with
    | word => exact ⟨h.1, ih h.2⟩
    | _ => exact ih h

end Apart

end Piece

/-! ## Fodder -/

open Piece

section Fill

variable {crowded separate : Bool} {lastIndent : Nat} {f : Fodder}

end Fill

/-! ## Scripts -/

namespace Expr

variable {e : Expr}

end Expr

end JsonnetTree
