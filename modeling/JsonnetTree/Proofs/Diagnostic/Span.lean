import JsonnetTree.Diagnostic.Snippet
import Mathlib.Tactic.ByContra
import Mathlib.Tactic.NthRewrite

/-!
# Where spans start and end

The span of a location always lies in the source text, is not empty and starts between two
characters. It ends between two characters as well, except for a location that does not end after
its start: the span then has one byte, even where the character at its start has several
(`Location.span?_boundaries`). A diagnostic cannot be shown for such a span.
-/

namespace JsonnetTree

namespace Text

/-- A number of bytes after which a text can be cut: those of some first characters. -/
def IsBoundary (text : List Char) (offset : Nat) : Prop :=
  ∃ before after, text = before ++ after ∧ utf8Length before = offset

/-- The character that starts at an offset. -/
def charAt? (text : List Char) (offset : Nat) : Option Char :=
  (splitAtByte? offset text).bind (·.2.head?)

/-- The first characters of a text that take some bytes, after those of a start of the text. -/
theorem takeBytes_append (left right : List Char) (bytes : Nat) :
    takeBytes (utf8Length left + bytes) (left ++ right) = left ++ takeBytes bytes right := by
  induction left with
  | nil => simp
  | cons c left ih =>
    have hsize : c.utf8Size ≤ utf8Length (c :: left) + bytes := by
      rw [utf8Length_cons]
      omega
    have hrest : utf8Length (c :: left) + bytes - c.utf8Size = utf8Length left + bytes := by
      rw [utf8Length_cons]
      omega
    rw [List.cons_append, takeBytes, if_pos hsize, hrest, ih, List.cons_append]

/-- The first characters of a text and the others are the text. -/
theorem takeBytes_append_drop (bytes : Nat) (text : List Char) :
    takeBytes bytes text ++ text.drop (takeBytes bytes text).length = text := by
  fun_induction takeBytes bytes text with
  | case1 => rfl
  | case2 bytes c rest hsize ih => simp [ih]
  | case3 => rfl

/-- A text can be cut after some bytes if its first characters take just as many. -/
theorem isBoundary_iff {text : List Char} {offset : Nat} :
    IsBoundary text offset ↔ utf8Length (takeBytes offset text) = offset := by
  constructor
  · rintro ⟨before, after, rfl, rfl⟩
    rw [takeBytes_utf8Length]
  · intro h
    exact ⟨_, _, (takeBytes_append_drop offset text).symm, h⟩

/-- A text can be cut at its boundaries and nowhere else. -/
theorem isSome_splitAtByte? {text : List Char} {offset : Nat} :
    (splitAtByte? offset text).isSome ↔ IsBoundary text offset := by
  rw [isBoundary_iff, splitAtByte?]
  split <;> simp_all

/-- The boundaries after a start of a text are those of the rest. -/
theorem isBoundary_append_iff (left right : List Char) (offset : Nat) :
    IsBoundary (left ++ right) (utf8Length left + offset) ↔ IsBoundary right offset := by
  rw [isBoundary_iff, isBoundary_iff, takeBytes_append, utf8Length_append]
  omega

/-- There is a boundary after the first byte of a text if its first character has one byte. -/
theorem isBoundary_cons_one_iff (c : Char) (rest : List Char) :
    IsBoundary (c :: rest) 1 ↔ c.utf8Size = 1 := by
  have hpos := c.utf8Size_pos
  rw [isBoundary_iff, takeBytes]
  by_cases hsize : c.utf8Size ≤ 1
  · have hone : c.utf8Size = 1 := by omega
    have hnone : takeBytes 0 rest = [] := takeBytes_utf8Length [] rest
    simp [hone, hnone]
  · have hone : c.utf8Size ≠ 1 := by omega
    simp [hsize, hone]

/-- A text is cut at its end at the latest. -/
theorem IsBoundary.le {text : List Char} {offset : Nat} (h : IsBoundary text offset) :
    offset ≤ utf8Length text := by
  obtain ⟨before, after, rfl, rfl⟩ := h
  rw [utf8Length_append]
  omega

/-- The end of a text is a boundary. -/
theorem isBoundary_length (text : List Char) : IsBoundary text (utf8Length text) :=
  ⟨text, [], by simp, rfl⟩

/-- At a boundary before the end of a text there is a character. -/
theorem IsBoundary.exists_char {text : List Char} {offset : Nat} (h : IsBoundary text offset)
    (hlt : offset < utf8Length text) :
    ∃ before c after, text = before ++ c :: after ∧ utf8Length before = offset := by
  obtain ⟨before, after, rfl, rfl⟩ := h
  cases after with
  | nil => simp at hlt
  | cons c after => exact ⟨before, c, after, rfl, rfl⟩

/-- The character after a start of a text. -/
theorem charAt?_append (before : List Char) (c : Char) (after : List Char) :
    charAt? (before ++ c :: after) (utf8Length before) = some c := by
  rw [charAt?, splitAtByte?_utf8Length]
  rfl

/-- The content of a line is the start of the line. -/
theorem lineContent_isPrefix (line : List Char) : lineContent line <+: line := by
  rw [lineContent, ← List.reverse_suffix, List.reverse_reverse]
  exact List.dropWhile_suffix _

end Text

open Text

/-- The offset of a position: its line is there, and the bytes before it are those of the lines
before and those of the characters before the column. -/
theorem Position.offset?_eq_some_iff {source : List Char} {p : Position} {offset : Nat} :
    p.offset? source = some offset ↔
      ∃ line text, p.line.toNat = line + 1 ∧ (lines source)[line]? = some text ∧
        offset = utf8Length ((lines source).take line).flatten +
          utf8Length ((lineContent text).take (p.column.toNat - 1)) := by
  constructor
  · intro h
    rw [offset?] at h
    split at h
    next => cases h
    next line hline =>
      obtain ⟨text, htext, rfl⟩ := Option.map_eq_some_iff.mp h
      exact ⟨line, text, hline, htext, rfl⟩
  · rintro ⟨line, text, hline, htext, rfl⟩
    rw [offset?, hline]
    simp [htext]

/-- The offset of a position is a boundary. -/
theorem Position.isBoundary_offset? {source : List Char} {p : Position} {offset : Nat}
    (h : p.offset? source = some offset) : IsBoundary source offset := by
  obtain ⟨line, text, -, htext, rfl⟩ := offset?_eq_some_iff.mp h
  obtain ⟨hlt, rfl⟩ := List.getElem?_eq_some_iff.mp htext
  -- The text is the lines before, the line up to the column, and the rest.
  obtain ⟨rest, hrest⟩ :=
    (List.take_prefix (p.column.toNat - 1) (lineContent (lines source)[line])).trans
      (lineContent_isPrefix (lines source)[line])
  refine ⟨((lines source).take line).flatten ++
    (lineContent (lines source)[line]).take (p.column.toNat - 1),
    rest ++ ((lines source).drop (line + 1)).flatten, ?_, utf8Length_append _ _⟩
  calc source
    _ = (lines source).flatten := (flatten_lines source).symm
    _ = ((lines source).take line ++
        (lines source)[line] :: (lines source).drop (line + 1)).flatten := by
      rw [← List.drop_eq_getElem_cons hlt, List.take_append_drop]
    _ = _ := by
      rw [List.flatten_append, List.flatten_cons]
      nth_rewrite 1 [← hrest]
      simp only [List.append_assoc]

namespace Location

variable {source : List Char} {l : Location} {span : Span}

/-- The location does not end after its start, where a character of several bytes stands. -/
def IsEmptyAtWide (source : List Char) (l : Location) : Prop :=
  ∃ start stop c, l.start.offset? source = some start ∧ l.stop.offset? source = some stop ∧
    stop ≤ start ∧ charAt? source start = some c ∧ 1 < c.utf8Size

/-- Where a span ends: with the text if the location ends later, at the end of the location, or one
byte after its start. -/
theorem span?_eq_some (h : l.span? source = some span) :
    l.start.offset? source = some span.start ∧ span.start < span.stop ∧
      (l.stop.offset? source = none ∧ span.stop = utf8Length source ∨
        l.stop.offset? source = some span.stop ∨
        ∃ stop, l.stop.offset? source = some stop ∧ stop ≤ span.start ∧
          span.stop = span.start + 1 ∧ span.stop ≤ utf8Length source) := by
  obtain ⟨start, hstart, h⟩ := Option.bind_eq_some_iff.mp h
  have hle := (Position.isBoundary_offset? hstart).le
  dsimp only at h
  split at h <;> rename_i hempty
  · obtain ⟨hlt, hspan⟩ := Option.ite_none_right_eq_some.mp h
    obtain rfl := Option.some.inj hspan
    refine ⟨hstart, hlt, .inr (.inr ?_)⟩
    cases hstop : l.stop.offset? source with
    | none =>
      rw [hstop, Option.getD_none] at hempty
      omega
    | some stop =>
      rw [hstop, Option.getD_some] at hempty
      exact ⟨stop, rfl, hempty, by dsimp only; omega, by dsimp only; omega⟩
  · obtain ⟨hlt, hspan⟩ := Option.ite_none_right_eq_some.mp h
    obtain rfl := Option.some.inj hspan
    refine ⟨hstart, hlt, ?_⟩
    cases l.stop.offset? source with
    | none => exact .inl ⟨rfl, rfl⟩
    | some stop => exact .inr (.inl rfl)

end Location

/-- A text can be cut at both ends of a span that starts at a boundary if the span ends at one. -/
theorem Span.exists_excerpt_iff {source : List Char} {span : Span}
    (hstart : IsBoundary source span.start) (hle : span.start ≤ span.stop) :
    (∃ x, span.excerpt source = .ok x) ↔ IsBoundary source span.stop := by
  obtain ⟨before, after, rfl, hbefore⟩ := hstart
  have htake : takeBytes span.start (before ++ after) = before := by
    rw [← hbefore, takeBytes_utf8Length]
  have hstop : span.stop = utf8Length before + (span.stop - span.start) := by omega
  rw [hstop, isBoundary_append_iff, ← isSome_splitAtByte?, excerpt, htake, List.drop_left]
  cases splitAtByte? (span.stop - span.start) after <;> simp

/-- The span of a location lies in the source text, is not empty and starts at a boundary. It ends
at one, so that the text can be shown, if and only if the location ends after its start or starts at
a character of one byte. -/
theorem Location.span?_boundaries (source : List Char) (l : Location) (span : Span)
    (h : l.span? source = some span) :
    span.start < span.stop ∧ span.stop ≤ utf8Length source ∧ IsBoundary source span.start ∧
      (IsBoundary source span.stop ↔ ¬ l.IsEmptyAtWide source) ∧
      ((∃ x, span.excerpt source = .ok x) ↔ ¬ l.IsEmptyAtWide source) := by
  obtain ⟨hstart, hlt, hcases⟩ := span?_eq_some h
  have hboundary := Position.isBoundary_offset? hstart
  have hstop : span.stop ≤ utf8Length source ∧
      (IsBoundary source span.stop ↔ ¬ l.IsEmptyAtWide source) := by
    rcases hcases with ⟨hnone, heq⟩ | hsome | ⟨stop, hsome, hempty, heq, hle⟩
    · refine ⟨Nat.le_of_eq heq, iff_of_true (heq ▸ isBoundary_length source) ?_⟩
      rintro ⟨start, stop, c, -, hstop, -⟩
      rw [hnone] at hstop
      cases hstop
    · have hstop := Position.isBoundary_offset? hsome
      refine ⟨hstop.le, iff_of_true hstop ?_⟩
      rintro ⟨start, stop, c, hstart', hstop', hempty, -⟩
      rw [hstart, Option.some.injEq] at hstart'
      rw [hsome, Option.some.injEq] at hstop'
      omega
    · refine ⟨hle, ?_⟩
      obtain ⟨before, c, after, rfl, hbefore⟩ := hboundary.exists_char (by omega)
      have hchar : charAt? (before ++ c :: after) span.start = some c := by
        rw [← hbefore, charAt?_append]
      have hpos := c.utf8Size_pos
      rw [heq, ← hbefore, isBoundary_append_iff, isBoundary_cons_one_iff]
      constructor
      · rintro hone ⟨start, stop', c', hstart', -, -, hchar', hwide⟩
        rw [hstart, Option.some.injEq] at hstart'
        rw [← hstart', hchar, Option.some.injEq] at hchar'
        subst hchar'
        omega
      · intro hnot
        by_contra hone
        exact hnot ⟨span.start, stop, c, hstart, hsome, hempty, hchar, by omega⟩
  have hexcerpt := Span.exists_excerpt_iff hboundary (Nat.le_of_lt hlt)
  exact ⟨hlt, hstop.1, hboundary, hstop.2, hexcerpt.trans hstop.2⟩

/-- A location that ends after the end of a line, whose only character has two bytes. -/
theorem Location.span?_boundaries_wideLine :
    let source := "é\r\nab".toList
    let l : Location := ⟨"f", ⟨1, 1⟩, ⟨1, 9⟩⟩
    l.span? source = some ⟨0, 2⟩ ∧ ¬ l.IsEmptyAtWide source ∧ IsBoundary source 0 ∧
      IsBoundary source 2 ∧ ∃ x, Span.excerpt source ⟨0, 2⟩ = .ok x := by
  intro source l
  have hspan : l.span? source = some ⟨0, 2⟩ := by decide +kernel
  have hstart : l.start.offset? source = some 0 := by decide +kernel
  have hstop : l.stop.offset? source = some 2 := by decide +kernel
  have hnot : ¬ l.IsEmptyAtWide source := by
    rintro ⟨start, stop, c, hstart', hstop', hempty, -⟩
    rw [hstart, Option.some.injEq] at hstart'
    rw [hstop, Option.some.injEq] at hstop'
    omega
  obtain ⟨-, -, hboundary, hend, hexcerpt⟩ := span?_boundaries source l ⟨0, 2⟩ hspan
  exact ⟨hspan, hnot, hboundary, hend.mpr hnot, hexcerpt.mpr hnot⟩

/-- The span of an empty location at a character of two bytes ends inside the character. Its first
byte cannot be shown. -/
theorem Location.span?_insideChar :
    let source := ['é']
    let l : Location := ⟨"f", ⟨1, 1⟩, ⟨1, 1⟩⟩
    l.span? source = some ⟨0, 1⟩ ∧
      ¬ (∀ span, l.span? source = some span →
        span.start < span.stop ∧ span.stop ≤ utf8Length source ∧ IsBoundary source span.start ∧
          IsBoundary source span.stop) ∧
      (diagnostic "é" l "").toOption = none := by
  intro source l
  have hspan : l.span? source = some ⟨0, 1⟩ := by decide +kernel
  refine ⟨hspan, fun h => ?_, by decide +kernel⟩
  have hsize := (isBoundary_cons_one_iff 'é' []).mp (h ⟨0, 1⟩ hspan).2.2.2
  revert hsize
  decide

end JsonnetTree
