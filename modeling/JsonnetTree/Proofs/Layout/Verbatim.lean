import JsonnetTree.Layout.Literal
import Mathlib.Logic.Basic

/-!
# Verbatim strings

A verbatim string is printed between delimiters, and a delimiter in its text is printed twice. A
reader that takes two delimiters for one character, and one alone for the end, stops where the
printer stopped, whatever runs of delimiters the text holds (`StringLiteral.readVerbatim_chars`).
-/

namespace JsonnetTree

/-- The delimiter of a verbatim string. -/
def StringKind.verbatimMark? : StringKind → Option Char
  | .verbatimDouble => some '"'
  | .verbatimSingle => some '\''
  | .single | .double | .block => none

/-- Reads a verbatim string after its opening delimiter, and returns its text with what follows the
closing one. -/
def readVerbatim (mark : Char) : List Char → Option (List Char × List Char)
  | [] => none
  | [c] => if c = mark then some ([], []) else none
  | c :: d :: text =>
    if c ≠ mark then (readVerbatim mark (d :: text)).map fun (value, rest) => (c :: value, rest)
    else if d = mark then (readVerbatim mark text).map fun (value, rest) => (mark :: value, rest)
    else some ([], d :: text)

section

variable {mark c : Char} {text value rest : List Char}

/-- A delimiter is written twice. -/
theorem doubled_cons_self (mark : Char) (text : List Char) :
    doubled mark (mark :: text) = mark :: mark :: doubled mark text := by
  simp [doubled]

/-- Any other character is written once. -/
theorem doubled_cons_of_ne (hc : c ≠ mark) (text : List Char) :
    doubled mark (c :: text) = c :: doubled mark text := by
  simp [doubled, hc]

/-- A character other than the delimiter is read as itself. -/
theorem readVerbatim_cons_of_ne (hc : c ≠ mark) (text : List Char) :
    readVerbatim mark (c :: text) =
      (readVerbatim mark text).map fun (value, rest) => (c :: value, rest) := by
  cases text with
  | nil => simp [readVerbatim, hc]
  | cons d text => rw [readVerbatim, if_pos hc]

/-- Two delimiters are read as one character. -/
theorem readVerbatim_mark_mark (mark : Char) (text : List Char) :
    readVerbatim mark (mark :: mark :: text) =
      (readVerbatim mark text).map fun (value, rest) => (mark :: value, rest) := by
  rw [readVerbatim, if_neg (not_not.mpr rfl), if_pos rfl]

/-- A delimiter that no other one follows ends the string. -/
theorem readVerbatim_mark (h : text.head? ≠ some mark) :
    readVerbatim mark (mark :: text) = some ([], text) := by
  cases text with
  | nil => simp [readVerbatim]
  | cons d text =>
    have hd : d ≠ mark := by simpa using h
    rw [readVerbatim, if_neg (not_not.mpr rfl), if_neg hd]

/-- A text that is written with its delimiters doubled is read up to the delimiter after it. -/
theorem readVerbatim_doubled (h : rest.head? ≠ some mark) (value : List Char) :
    readVerbatim mark (doubled mark value ++ mark :: rest) = some (value, rest) := by
  induction value with
  | nil => exact readVerbatim_mark h
  | cons c value ih =>
    by_cases hc : c = mark
    · subst hc
      rw [doubled_cons_self, List.cons_append, List.cons_append, readVerbatim_mark_mark, ih,
        Option.map_some]
    · rw [doubled_cons_of_ne hc, List.cons_append, readVerbatim_cons_of_ne hc, ih, Option.map_some]

/-- A text that is read was written with its delimiters doubled, up to a delimiter that stands
alone. -/
theorem eq_doubled_of_readVerbatim (h : readVerbatim mark text = some (value, rest)) :
    text = doubled mark value ++ mark :: rest ∧ rest.head? ≠ some mark := by
  -- A text ends in a delimiter (`case2`, `case6`), or goes on with another character (`case4`) or
  -- with two delimiters (`case5`). The others are not read to an end.
  fun_induction readVerbatim mark text generalizing value rest with
  | case1 => cases h
  | case2 =>
    cases h
    exact ⟨rfl, by simp⟩
  | case3 => cases h
  | case4 c d text hc ih =>
    obtain ⟨⟨value', rest'⟩, hread, heq⟩ := Option.map_eq_some_iff.mp h
    obtain ⟨rfl, rfl⟩ := Prod.mk.inj heq
    obtain ⟨htext, hrest⟩ := ih hread
    exact ⟨by rw [doubled_cons_of_ne hc, List.cons_append, htext], hrest⟩
  | case5 c text hc ih =>
    obtain rfl := not_not.mp hc
    obtain ⟨⟨value', rest'⟩, hread, heq⟩ := Option.map_eq_some_iff.mp h
    obtain ⟨rfl, rfl⟩ := Prod.mk.inj heq
    obtain ⟨htext, hrest⟩ := ih hread
    exact ⟨by rw [doubled_cons_self, List.cons_append, List.cons_append, htext], hrest⟩
  | case6 c d text hc hd =>
    obtain rfl := not_not.mp hc
    cases h
    exact ⟨rfl, by simpa using hd⟩

end

/-- A verbatim string is its text with the delimiters doubled, between delimiters and after an
`@`. -/
theorem StringLiteral.chars_of_verbatim {s : StringLiteral} {mark : Char}
    (hkind : s.kind.verbatimMark? = some mark) :
    s.chars = '@' :: mark :: (doubled mark s.value.toList ++ [mark]) := by
  cases hk : s.kind with
  | verbatimDouble | verbatimSingle =>
    rw [hk] at hkind
    cases hkind
    simp [chars, hk]
  | single | double | block =>
    rw [hk] at hkind
    cases hkind

/-- Verbatim strings read back. What is printed of a verbatim string of either kind after its
opening delimiter is read to its last character, and as the value of the string. The reader stops
there whatever is printed next, unless that starts with a delimiter. -/
theorem StringLiteral.readVerbatim_chars (s : StringLiteral) (mark : Char)
    (hkind : s.kind.verbatimMark? = some mark) :
    ∃ body, s.chars = '@' :: mark :: body ∧
      readVerbatim mark body = some (s.value.toList, []) ∧
      ∀ rest, readVerbatim mark (body ++ rest) = some (s.value.toList, rest) ↔
        rest.head? ≠ some mark := by
  refine ⟨doubled mark s.value.toList ++ [mark], chars_of_verbatim hkind,
    readVerbatim_doubled (by simp) s.value.toList, fun rest => ?_⟩
  rw [List.append_assoc]
  constructor
  · exact fun h => (eq_doubled_of_readVerbatim h).2
  · exact fun h => readVerbatim_doubled h s.value.toList

/-- Strings of both kinds whose runs of delimiters have one, two and three of them, the last at the
end. The second one is followed by a semicolon. -/
theorem StringLiteral.readVerbatim_chars_runs :
    let s : StringLiteral := ⟨"\"a\"\"'b\"\"\"", .verbatimDouble, "", ""⟩
    let t : StringLiteral := ⟨"'a''\"b'''", .verbatimSingle, "", ""⟩
    s.kind.verbatimMark? = some '"' ∧ t.kind.verbatimMark? = some '\'' ∧
      s.chars = "@\"\"\"a\"\"\"\"'b\"\"\"\"\"\"\"".toList ∧ t.chars = "@'''a''''\"b'''''''".toList ∧
      (∃ body, s.chars = '@' :: '"' :: body ∧ readVerbatim '"' body = some (s.value.toList, [])) ∧
      ∃ body, t.chars = '@' :: '\'' :: body ∧
        readVerbatim '\'' (body ++ [';']) = some (t.value.toList, [';']) := by
  intro s t
  obtain ⟨body, hchars, hread, -⟩ := StringLiteral.readVerbatim_chars s '"' rfl
  obtain ⟨body', hchars', -, hread'⟩ := StringLiteral.readVerbatim_chars t '\'' rfl
  exact ⟨rfl, rfl, by decide +kernel, by decide +kernel, ⟨body, hchars, hread⟩, body', hchars',
    (hread' [';']).mpr (by decide)⟩

end JsonnetTree
