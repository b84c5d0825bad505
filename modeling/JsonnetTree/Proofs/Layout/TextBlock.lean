import JsonnetTree.Layout.Literal

/-!
# Text blocks

A text block is printed with its lines indented. Which empty lines are indented depends on the
carriage returns of the text, which are not printed. Either way the text can be read back, without
its carriage returns, by taking the indentation off every line that is not empty
(`StringLiteral.chars_block`).
-/

namespace JsonnetTree

/-- Printed lines that stand for a text: those that are not empty are indented, and the text is
what the lines hold without their indentation. -/
structure Indents (indent printed text : List Char) : Prop where
  starts : ∀ line ∈ printed.splitOn '\n', line ≠ [] → indent <+: line
  text_eq : ['\n'].intercalate ((printed.splitOn '\n').map (·.drop indent.length)) = text

namespace Indents

variable {indent printed text : List Char}

/-- To put characters in front of a text is to put them in front of its first line. -/
theorem splitOn_append (hindent : '\n' ∉ indent) (printed : List Char) :
    (indent ++ printed).splitOn '\n' = (printed.splitOn '\n').modifyHead (indent ++ ·) := by
  induction indent with
  | nil => cases h : printed.splitOn '\n' <;> simp [h]
  | cons c indent ih =>
    have hc : c ≠ '\n' := fun h => hindent (h ▸ List.mem_cons_self)
    have hrest : '\n' ∉ indent := fun h => hindent (List.mem_cons_of_mem c h)
    rw [List.cons_append, List.splitOn_cons_eq_if_modifyHead, if_neg (by simpa using hc), ih hrest,
      List.modifyHead_modifyHead]
    rfl

/-- An empty line stands for no text. -/
protected theorem nil : Indents indent [] [] := by
  constructor <;> simp

/-- A line that is only indented stands for no text. -/
theorem indent_only (hindent : '\n' ∉ indent) : Indents indent indent [] := by
  have hlines : indent.splitOn '\n' = [indent] := List.splitOn_eq_singleton hindent
  constructor <;> simp [hlines]

/-- A character in an indented line. -/
theorem char {c : Char} (hindent : '\n' ∉ indent) (hc : c ≠ '\n')
    (h : Indents indent (indent ++ printed) text) :
    Indents indent (indent ++ c :: printed) (c :: text) := by
  obtain ⟨first, more, hlines⟩ := List.exists_cons_of_ne_nil (List.splitOn_ne_nil '\n' printed)
  have hold : (indent ++ printed).splitOn '\n' = (indent ++ first) :: more := by
    rw [splitOn_append hindent, hlines, List.modifyHead_cons]
  have hnew : (indent ++ c :: printed).splitOn '\n' = (indent ++ c :: first) :: more := by
    rw [splitOn_append hindent, List.splitOn_cons_eq_if_modifyHead, if_neg (by simpa using hc),
      hlines, List.modifyHead_cons, List.modifyHead_cons]
  obtain ⟨hstarts, htext⟩ := h
  rw [hold] at hstarts htext
  constructor
  · rw [hnew]
    intro line hline
    rcases List.mem_cons.mp hline with rfl | hline
    · exact fun _ => List.prefix_append _ _
    · exact hstarts line (List.mem_cons_of_mem _ hline)
  · simp only [List.map_cons, List.drop_left] at htext
    rw [hnew, ← htext]
    cases more <;> simp [List.intercalate_cons_cons]

/-- A line break after a line that holds no text. -/
theorem line_break {line : List Char} (hbreak : '\n' ∉ line) (hline : line = [] ∨ line = indent)
    (h : Indents indent printed text) :
    Indents indent (line ++ '\n' :: printed) ('\n' :: text) := by
  have hlines : (line ++ '\n' :: printed).splitOn '\n' = line :: printed.splitOn '\n' :=
    List.splitOn_append_cons_self_of_not_mem hbreak printed
  have hempty : line.drop indent.length = [] := by
    rcases hline with rfl | rfl <;> simp
  obtain ⟨first, more, hprinted⟩ := List.exists_cons_of_ne_nil (List.splitOn_ne_nil '\n' printed)
  constructor
  · rw [hlines]
    intro line' hline'
    rcases List.mem_cons.mp hline' with rfl | hline'
    · rcases hline with rfl | rfl
      · exact fun hne => absurd rfl hne
      · exact fun _ => List.prefix_rfl
    · exact h.starts line' hline'
  · rw [hlines, List.map_cons, hempty, ← h.text_eq, hprinted, List.map_cons,
      List.intercalate_cons_cons]
    rfl

end Indents

/-- What is printed of a text block stands for the text without its carriage returns: from the start
of an indented line on, and where the text starts with an empty line, also from the start of a line
that is not indented. -/
theorem indents_blockChars {indent : List Char} (hindent : '\n' ∉ indent) (text : List Char) :
    Indents indent (indent ++ blockChars indent text) (text.filter (· ≠ '\r')) ∧
      (text.head? = some '\n' →
        Indents indent (blockChars indent text) (text.filter (· ≠ '\r'))) := by
  -- After a line break it does not matter whether the line before was indented.
  have hbreak {printed rest : List Char} (h : Indents indent printed (rest.filter (· ≠ '\r'))) :
      Indents indent (indent ++ '\n' :: printed) (('\n' :: rest).filter (· ≠ '\r')) ∧
        (('\n' :: rest).head? = some '\n' →
          Indents indent ('\n' :: printed) (('\n' :: rest).filter (· ≠ '\r'))) := by
    rw [List.filter_cons_of_pos (by decide)]
    exact ⟨h.line_break hindent (.inr rfl),
      fun _ => h.line_break List.not_mem_nil (.inl rfl)⟩
  fun_induction blockChars indent text with
  | case1 => simpa using Indents.indent_only hindent
  | case2 rest ih => simpa using ih.1
  | case3 => exact hbreak (by simpa using Indents.nil)
  | case4 tail ih => exact hbreak (ih.2 rfl)
  | case5 c tail hc ih => exact hbreak ih.1
  | case6 c rest hr hn ih =>
    rw [List.filter_cons_of_pos (by simpa using hr)]
    refine ⟨ih.1.char hindent hn, fun hhead => absurd ?_ hn⟩
    simpa using hhead

/-- A text block keeps its text. Of what is printed between the opening mark with its line break and
the indentation of the closing mark, every line that is not empty starts with the indentation of the
block, and the lines without this indentation are the text without its carriage returns. -/
theorem StringLiteral.chars_block (s : StringLiteral) (hkind : s.kind = .block)
    (hindent : ∀ c ∈ s.blockIndent.toList, c = ' ' ∨ c = '\t') :
    ∃ body, s.chars = blockMark ++ '\n' :: body ++ s.termIndent.toList ++ blockMark ∧
      (∀ line ∈ body.splitOn '\n', line ≠ [] → s.blockIndent.toList <+: line) ∧
      ['\n'].intercalate ((body.splitOn '\n').map (·.drop s.blockIndent.toList.length)) =
        s.value.toList.filter (· ≠ '\r') := by
  have hbreak : '\n' ∉ s.blockIndent.toList := fun h => by
    rcases hindent '\n' h with h | h <;> cases h
  obtain ⟨hline, hempty⟩ := indents_blockChars hbreak s.value.toList
  by_cases hhead : s.value.toList.head? = some '\n'
  · refine ⟨blockChars s.blockIndent.toList s.value.toList, ?_, (hempty hhead).starts,
      (hempty hhead).text_eq⟩
    simp [chars, hkind, hhead]
  · refine ⟨s.blockIndent.toList ++ blockChars s.blockIndent.toList s.value.toList, ?_,
      hline.starts, hline.text_eq⟩
    simp [chars, hkind, hhead]

/-- A block whose first line is empty but for a carriage return, and so is one in the middle. Both
are indented, and the empty line after the latter is not. -/
theorem StringLiteral.chars_block_returns :
    let s : StringLiteral := ⟨"\r\na\n\r\n\n\té\r\n", .block, " \t", ""⟩
    s.kind = .block ∧ (∀ c ∈ s.blockIndent.toList, c = ' ' ∨ c = '\t') ∧
      s.chars = "|||\n \t\n \ta\n \t\n\n \t\té\n|||".toList ∧
      ∃ body, s.chars = blockMark ++ '\n' :: body ++ blockMark ∧
        (∀ line ∈ body.splitOn '\n', line ≠ [] → [' ', '\t'] <+: line) ∧
        ['\n'].intercalate ((body.splitOn '\n').map (·.drop 2)) = "\na\n\n\n\té\n".toList := by
  intro s
  have hblockIndent : s.blockIndent.toList = [' ', '\t'] := by decide +kernel
  have hindent : ∀ c ∈ s.blockIndent.toList, c = ' ' ∨ c = '\t' := by simp [hblockIndent]
  have hvalue : s.value.toList.filter (· ≠ '\r') = "\na\n\n\n\té\n".toList := by decide +kernel
  obtain ⟨body, hchars, hstarts, htext⟩ := StringLiteral.chars_block s rfl hindent
  rw [hblockIndent] at hstarts htext
  refine ⟨rfl, hindent, by decide +kernel, body, ?_, hstarts, htext.trans hvalue⟩
  simpa [s] using hchars

end JsonnetTree
