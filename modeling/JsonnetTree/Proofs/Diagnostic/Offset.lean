import JsonnetTree.Proofs.Diagnostic.Span
import Mathlib.Data.List.DropRight

/-!
# Offsets of lines and columns

Lines and columns count characters, and offsets count bytes. The offset of a position is that of the
character which has its line and column, unless only line feeds and carriage returns follow on its
line, and later positions have no smaller offsets (`Position.offset?_inverts_counting`).
-/

namespace JsonnetTree

namespace Text

/-! ## Counting lines and columns -/

/-- The lines with a line feed among some first characters of a text. -/
def wholeLines (before : List Char) : List Char :=
  before.rdropWhile (· ≠ '\n')

/-- What follows the last line feed among some first characters of a text. -/
def lineStart (before : List Char) : List Char :=
  before.rtakeWhile (· ≠ '\n')

/-- Whole lines and the start of a line make up the text. -/
theorem wholeLines_append_lineStart (before : List Char) :
    wholeLines before ++ lineStart before = before :=
  List.rdropWhile_append_rtakeWhile

/-- The line, counted from one, of what stands after some first characters of a text. -/
def lineAfter (before : List Char) : Nat :=
  before.count '\n' + 1

/-- The column, counted from one, of what stands after some first characters of a text. -/
def columnAfter (before : List Char) : Nat :=
  (lineStart before).length + 1

/-- From here on, the line has nothing but carriage returns and the line feed that ends it. -/
def AtLineEnd (rest : List Char) : Prop :=
  ∀ c ∈ rest.takeWhile (· ≠ '\n'), c = '\r'

/-! ## Lines of a text that is put together -/

/-- A text with characters has lines. -/
theorem lines_ne_nil {text : List Char} (h : text ≠ []) : lines text ≠ [] := by
  intro hlines
  have hflatten := flatten_lines text
  rw [hlines, List.flatten_nil] at hflatten
  exact h hflatten.symm

/-- A character other than a line feed belongs to the line that follows. -/
theorem lines_cons_of_ne {c : Char} {text line : List Char} {more : List (List Char)}
    (hc : c ≠ '\n') (h : lines text = line :: more) : lines (c :: text) = (c :: line) :: more := by
  rw [lines, if_neg hc, h]

/-- Characters other than line feeds belong to the line that follows. -/
theorem lines_append_of_not_mem {start text line : List Char} {more : List (List Char)}
    (hstart : '\n' ∉ start) (h : lines text = line :: more) :
    lines (start ++ text) = (start ++ line) :: more := by
  induction start with
  | nil => exact h
  | cons c start ih =>
    have hc : c ≠ '\n' := fun hc => hstart (hc ▸ List.mem_cons_self)
    exact lines_cons_of_ne hc (ih fun hmem => hstart (List.mem_cons_of_mem c hmem))

/-- The first line of a text has all that comes before the first line feed. -/
theorem exists_lines_cons {text : List Char} (h : text ≠ []) :
    ∃ line more, lines text = line :: more ∧ text.takeWhile (· ≠ '\n') <+: line := by
  induction text with
  | nil => exact absurd rfl h
  | cons c text ih =>
    by_cases hc : c = '\n'
    · exact ⟨[c], lines text, by rw [lines, if_pos hc], by simp [hc]⟩
    · rw [List.takeWhile_cons_of_pos (by simpa using hc)]
      cases text with
      | nil => exact ⟨[c], [], by rw [lines, if_neg hc]; rfl, List.prefix_rfl⟩
      | cons d text =>
        obtain ⟨line, more, hlines, hprefix⟩ := ih (List.cons_ne_nil d text)
        exact ⟨c :: line, more, lines_cons_of_ne hc hlines, (List.prefix_cons_inj c).mpr hprefix⟩

/-- A text whose last line has its line feed. -/
def EndsLine (text : List Char) : Prop :=
  ∀ c ∈ text.getLast?, c = '\n'

namespace EndsLine

variable {c : Char} {text : List Char}

/-- A text ends its line with or without its first character. -/
theorem tail (h : EndsLine (c :: text)) : EndsLine text := by
  cases text with
  | nil => simp [EndsLine]
  | cons d text => simpa [EndsLine] using h

/-- After a character other than a line feed more must come. -/
theorem exists_lines (h : EndsLine (c :: text)) (hc : c ≠ '\n') :
    ∃ line more, lines text = line :: more := by
  have hne : text ≠ [] := by
    rintro rfl
    exact hc (h c rfl)
  exact List.exists_cons_of_ne_nil (lines_ne_nil hne)

/-- What follows a line feed starts a line. -/
theorem lines_append (h : EndsLine text) (rest : List Char) :
    lines (text ++ rest) = lines text ++ lines rest := by
  induction text with
  | nil => rfl
  | cons c text ih =>
    have hrest := ih h.tail
    by_cases hc : c = '\n'
    · rw [List.cons_append, lines, if_pos hc, hrest, lines, if_pos hc, List.cons_append]
    · obtain ⟨line, more, hlines⟩ := h.exists_lines hc
      rw [hlines, List.cons_append] at hrest
      rw [List.cons_append, lines_cons_of_ne hc hrest, lines_cons_of_ne hc hlines, List.cons_append]

/-- A text has as many lines as line feeds if its last line has its own. -/
theorem length_lines (h : EndsLine text) : (lines text).length = text.count '\n' := by
  induction text with
  | nil => rfl
  | cons c text ih =>
    have hrest := ih h.tail
    by_cases hc : c = '\n'
    · rw [lines, if_pos hc, List.length_cons, hrest, hc, List.count_cons_self]
    · obtain ⟨line, more, hlines⟩ := h.exists_lines hc
      rw [lines_cons_of_ne hc hlines, List.count_cons_of_ne hc, ← hrest, hlines]
      rfl

end EndsLine

/-- Whole lines end with a line feed. -/
theorem endsLine_wholeLines (before : List Char) : EndsLine (wholeLines before) := by
  intro c hc
  obtain ⟨hne, rfl⟩ := List.mem_getLast?_eq_getLast hc
  have hlast := List.rdropWhile_last_not (· ≠ '\n') before hne
  rwa [decide_eq_true_eq, not_not] at hlast

/-- What follows the last line feed has none. -/
theorem not_mem_lineStart (before : List Char) : '\n' ∉ lineStart before := by
  intro hmem
  simpa using List.mem_rtakeWhile_imp hmem

/-- There are as many whole lines as line feeds. -/
theorem length_lines_wholeLines (before : List Char) :
    (lines (wholeLines before)).length = before.count '\n' := by
  rw [(endsLine_wholeLines before).length_lines]
  nth_rewrite 2 [← wholeLines_append_lineStart before]
  rw [List.count_append, List.count_eq_zero_of_not_mem (not_mem_lineStart before), Nat.add_zero]

/-- The lines of a text around a place in it: the whole lines before, the line of the place, and
others. -/
theorem exists_lines_append (before : List Char) {rest : List Char} (hrest : rest ≠ []) :
    ∃ line more, rest.takeWhile (· ≠ '\n') <+: line ∧
      lines (before ++ rest) = lines (wholeLines before) ++ (lineStart before ++ line) :: more := by
  obtain ⟨line, more, hlines, hprefix⟩ := exists_lines_cons hrest
  refine ⟨line, more, hprefix, ?_⟩
  nth_rewrite 1 [← wholeLines_append_lineStart before]
  rw [List.append_assoc, (endsLine_wholeLines before).lines_append,
    lines_append_of_not_mem (not_mem_lineStart before) hlines]

/-- The content of a line starts with all that stands before a character which does not belong to
the line end. -/
theorem lineContent_append {start rest : List Char} (h : ∃ c ∈ rest, c ≠ '\n' ∧ c ≠ '\r') :
    lineContent (start ++ rest) = start ++ lineContent rest := by
  obtain ⟨c, hc, hline, hreturn⟩ := h
  have hne : (rest.reverse.dropWhile fun c => c = '\n' || c = '\r') ≠ [] := by
    intro hnil
    have hend := List.dropWhile_eq_nil_iff.mp hnil c (List.mem_reverse.mpr hc)
    simp [hline, hreturn] at hend
  rw [lineContent, lineContent, List.reverse_append, List.dropWhile_append,
    if_neg (by simpa using hne), List.reverse_append, List.reverse_reverse]

/-- A start of a text takes no more bytes than the text. -/
theorem utf8Length_le_of_prefix {start text : List Char} (h : start <+: text) :
    utf8Length start ≤ utf8Length text := by
  obtain ⟨rest, rfl⟩ := h
  rw [utf8Length_append]
  omega

end Text

open Text

namespace Position

/-- The position has the line and the column of what stands after some first characters. -/
def IsAfter (p : Position) (before : List Char) : Prop :=
  p.line.toNat = lineAfter before ∧ p.column.toNat = columnAfter before

variable {source : List Char} {p q : Position}

/-- The position of a character that is not at the end of its line has the offset of that
character. -/
theorem offset?_of_isAfter {before rest : List Char} (h : p.IsAfter before)
    (hrest : ¬AtLineEnd rest) : p.offset? (before ++ rest) = some (utf8Length before) := by
  obtain ⟨hline, hcolumn⟩ := h
  obtain ⟨c, hc, hreturn⟩ : ∃ c ∈ rest.takeWhile (· ≠ '\n'), c ≠ '\r' := by
    simpa [AtLineEnd] using hrest
  have hne : rest ≠ [] := by
    rintro rfl
    cases hc
  -- The line goes on after the character, so that its content has all that stands before it.
  obtain ⟨line, more, hprefix, hlines⟩ := exists_lines_append before hne
  have hcontent : ∃ d ∈ line, d ≠ '\n' ∧ d ≠ '\r' :=
    ⟨c, hprefix.subset hc, by simpa using List.mem_takeWhile_imp hc, hreturn⟩
  have hindex : before.count '\n' = (lines (wholeLines before)).length :=
    (length_lines_wholeLines before).symm
  have htext : (lines (before ++ rest))[before.count '\n']? = some (lineStart before ++ line) := by
    rw [hlines, hindex, List.getElem?_append_right (Nat.le_refl _), Nat.sub_self]
    rfl
  calc p.offset? (before ++ rest)
    _ = some (utf8Length ((lines (before ++ rest)).take (before.count '\n')).flatten +
        utf8Length ((lineContent (lineStart before ++ line)).take (p.column.toNat - 1))) :=
      offset?_eq_some_iff.mpr ⟨_, _, hline, htext, rfl⟩
    _ = some (utf8Length (wholeLines before) + utf8Length (lineStart before)) := by
      rw [hlines, hindex, List.take_left, flatten_lines, hcolumn, columnAfter, Nat.add_sub_cancel,
        lineContent_append hcontent, List.take_left]
    _ = some (utf8Length before) := by
      rw [← utf8Length_append, wholeLines_append_lineStart]

/-- Positions are compared by line, and on one line by column. -/
theorem isLE_compare_iff : (p.compare q).isLE ↔ p.line.toNat < q.line.toNat ∨
    p.line.toNat = q.line.toNat ∧ p.column.toNat ≤ q.column.toNat := by
  rw [compare, Ordering.isLE_then_iff_or]
  simp [Nat.isLE_compare, Nat.compare_eq_lt]

/-- A later position has no smaller offset. -/
theorem offset?_le_of_isLE {a b : Nat} (h : (p.compare q).isLE) (hp : p.offset? source = some a)
    (hq : q.offset? source = some b) : a ≤ b := by
  obtain ⟨line, text, hline, htext, rfl⟩ := offset?_eq_some_iff.mp hp
  obtain ⟨line', text', hline', htext', rfl⟩ := offset?_eq_some_iff.mp hq
  rcases isLE_compare_iff.mp h with hlt | ⟨heq, hle⟩
  · -- The earlier line ends where the next one starts, and all lines up to the later one follow.
    have hcontent : utf8Length ((lineContent text).take (p.column.toNat - 1)) ≤ utf8Length text :=
      utf8Length_le_of_prefix ((List.take_prefix _ _).trans (lineContent_isPrefix text))
    have hnext : ((lines source).take (line + 1)).flatten =
        ((lines source).take line).flatten ++ text := by
      rw [List.take_add_one, htext, List.flatten_append]
      simp
    have hlines : utf8Length ((lines source).take (line + 1)).flatten ≤
        utf8Length ((lines source).take line').flatten := by
      have hnumber : line + 1 ≤ line' := by omega
      obtain ⟨rest, hrest⟩ := List.take_prefix_take_left (l := lines source) hnumber
      exact utf8Length_le_of_prefix ⟨rest.flatten, by rw [← List.flatten_append, hrest]⟩
    rw [hnext, utf8Length_append] at hlines
    omega
  · obtain rfl : line = line' := by omega
    obtain rfl : text = text' := Option.some.inj (htext.symm.trans htext')
    have hcolumn : utf8Length ((lineContent text).take (p.column.toNat - 1)) ≤
        utf8Length ((lineContent text).take (q.column.toNat - 1)) :=
      utf8Length_le_of_prefix (List.take_prefix_take_left (by omega))
    omega

/-- The offset of a position inverts the counting of lines and columns: for every character of a
text that is not among the line feeds and carriage returns at the end of its line, the position with
its line and column has its offset. Of two positions that have offsets the later one has no smaller
offset, and no offset lies after the end of the text. -/
theorem offset?_inverts_counting (source : List Char) :
    (∀ (before : List Char) (c : Char) (after : List Char) (p : Position),
        source = before ++ c :: after → ¬AtLineEnd (c :: after) → p.IsAfter before →
          p.offset? source = some (utf8Length before)) ∧
      ∀ (p q : Position) (a b : Nat), (p.compare q).isLE → p.offset? source = some a →
        q.offset? source = some b → a ≤ b ∧ b ≤ utf8Length source := by
  constructor
  · rintro before c after p rfl hrest hp
    exact offset?_of_isAfter hp hrest
  · intro p q a b hle hp hq
    exact ⟨offset?_le_of_isLE hle hp hq, (isBoundary_offset? hq).le⟩

/-- A character of four bytes on the third line, after a carriage return that does not end it. A
column of zero and one after the end of the line are positions too. -/
theorem offset?_inverts_counting_wide :
    let before := "é\rb\r\n\n\r".toList
    let after := "x\r\r\n".toList
    let source := before ++ '𝄞' :: after
    (¬AtLineEnd ('𝄞' :: after) ∧ IsAfter ⟨3, 2⟩ before ∧ offset? source ⟨3, 2⟩ = some 8) ∧
      (compare ⟨1, 0⟩ ⟨3, 9⟩).isLE ∧ offset? source ⟨1, 0⟩ = some 0 ∧
      offset? source ⟨3, 9⟩ = some 13 ∧ 0 ≤ 13 ∧ 13 ≤ utf8Length source := by
  intro before after source
  obtain ⟨hinverts, hmono⟩ := offset?_inverts_counting source
  have hrest : ¬AtLineEnd ('𝄞' :: after) := fun h => by
    have hend := h '𝄞' (by simp)
    revert hend
    decide
  have hafter : IsAfter ⟨3, 2⟩ before := by
    constructor <;> decide +kernel
  have hfirst : offset? source ⟨1, 0⟩ = some 0 := by decide +kernel
  have hlast : offset? source ⟨3, 9⟩ = some 13 := by decide +kernel
  have hle : (compare ⟨1, 0⟩ ⟨3, 9⟩).isLE := by decide
  have hlength : utf8Length before = 8 := by decide +kernel
  exact ⟨⟨hrest, hafter, hlength ▸ hinverts before '𝄞' after ⟨3, 2⟩ rfl hrest hafter⟩, hle, hfirst,
    hlast, hmono ⟨1, 0⟩ ⟨3, 9⟩ 0 13 hle hfirst hlast⟩

end Position

end JsonnetTree
