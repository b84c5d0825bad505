import JsonnetTree.Proofs.Graph.Labels

/-!
# Reading drawn graphs

The text of a graph is read back with the usual rule for quoted texts: a backslash before a quote
stands for the quote, the first other quote ends the text, and every other character stands for
itself (`readQuoted`). What is written for a label is read as that label, unless the label ends in a
backslash: then the closing quote is read as part of the text, and reading goes on into what follows
(`readLabel_quoteLabel_eq_some_iff`). The label of an expression ends in a backslash if and only if
its literal, its name or its field does. So a graph is read back as the pairs of labels that were
drawn if and only if no expression ends so, or if there is no edge at all.
-/

namespace JsonnetTree

/-! ## The reader -/

/-- Reads a text up to its closing quote, and returns it with what follows the quote. -/
def readQuoted : List Char → Option (List Char × List Char)
  | [] => none
  | '\\' :: '"' :: text => (readQuoted text).map fun (label, rest) => ('"' :: label, rest)
  | '"' :: text => some ([], text)
  | c :: text => (readQuoted text).map fun (label, rest) => (c :: label, rest)

/-- Reads a label between quotes, and returns it with what follows. -/
def readLabel (text : List Char) : Option (String × List Char) := do
  (readQuoted (← text.dropPrefix? ['"'])).map fun (label, rest) => (String.ofList label, rest)

/-- Reads the line of an edge, and returns its two labels with what follows. -/
def readEdge (text : List Char) : Option ((String × String) × List Char) := do
  let text ← text.dropPrefix? [' ', ' ']
  let (source, text) ← readLabel text
  let text ← text.dropPrefix? ['-', '>']
  let (target, text) ← readLabel text
  let text ← text.dropPrefix? ['\n']
  return ((source, target), text)

/-- A text that was put in front is taken off again. -/
theorem dropPrefix?_append_self (head text : List Char) :
    (head ++ text).dropPrefix? head = some text :=
  List.dropPrefix?_eq_some_iff.mpr ⟨head, rfl, beq_self_eq_true head⟩

/-- What is taken off makes the text so much shorter. -/
theorem length_of_dropPrefix? {head text rest : List Char} (h : text.dropPrefix? head = some rest) :
    text.length = head.length + rest.length := by
  obtain ⟨head', rfl, heq⟩ := List.dropPrefix?_eq_some_iff.mp h
  rw [List.length_append, eq_of_beq heq]

/-- What follows the closing quote is shorter than the text that was read. -/
theorem length_of_readQuoted {text label rest : List Char}
    (h : readQuoted text = some (label, rest)) : rest.length < text.length := by
  fun_induction readQuoted text generalizing label with
  | case1 => cases h
  | case2 text ih =>
    obtain ⟨⟨label', rest'⟩, hread, heq⟩ := Option.map_eq_some_iff.mp h
    obtain ⟨-, rfl⟩ := Prod.ext_iff.mp heq
    exact (ih hread).trans (Nat.lt_add_of_pos_right Nat.two_pos)
  | case3 text =>
    obtain ⟨-, rfl⟩ := Prod.ext_iff.mp (Option.some.inj h)
    simp
  | case4 c text _ _ ih =>
    obtain ⟨⟨label', rest'⟩, hread, heq⟩ := Option.map_eq_some_iff.mp h
    obtain ⟨-, rfl⟩ := Prod.ext_iff.mp heq
    exact (ih hread).trans (by simp)

/-- What follows a label is shorter than the text that was read. -/
theorem length_of_readLabel {text rest : List Char} {label : String}
    (h : readLabel text = some (label, rest)) : rest.length < text.length := by
  simp only [readLabel, Option.bind_eq_bind, Option.bind_eq_some_iff, Option.map_eq_some_iff] at h
  obtain ⟨text', htext', ⟨label', rest'⟩, hquoted, heq⟩ := h
  obtain ⟨-, rfl⟩ := Prod.ext_iff.mp heq
  have := length_of_dropPrefix? htext'
  have := length_of_readQuoted hquoted
  grind

/-- What follows an edge is shorter than the text that was read. -/
theorem length_of_readEdge {text rest : List Char} {labels : String × String}
    (h : readEdge text = some (labels, rest)) : rest.length < text.length := by
  simp only [readEdge, Option.bind_eq_bind, Option.bind_eq_some_iff] at h
  obtain ⟨text₁, h₁, ⟨source, text₂⟩, h₂, text₃, h₃, ⟨target, text₄⟩, h₄, text₅, h₅, heq⟩ := h
  obtain ⟨-, rfl⟩ := Prod.ext_iff.mp (Option.some.inj heq)
  have := length_of_dropPrefix? h₁
  have := length_of_readLabel h₂
  have := length_of_dropPrefix? h₃
  have := length_of_readLabel h₄
  have := length_of_dropPrefix? h₅
  grind

/-- Reads edges up to the closing brace, which ends the text. -/
def readEdges (text : List Char) : Option (List (String × String)) :=
  if text = ['\x7d', '\n'] then some []
  else match _hread : readEdge text with
    | none => none
    | some (labels, rest) => (readEdges rest).map (labels :: ·)
termination_by text.length
decreasing_by exact length_of_readEdge _hread

/-- Reads the text of a graph as the pairs of labels of its edges. -/
def readGraph (text : String) : Option (List (String × String)) := do
  readEdges (← text.toList.dropPrefix? "digraph \x7b\n".toList)

/-! ## Reading a label -/

/-- A text ends in a backslash. -/
def EndsInBackslash (text : String) : Prop :=
  text.toList.getLast? = some '\\'

instance (text : String) : Decidable (EndsInBackslash text) :=
  inferInstanceAs (Decidable (text.toList.getLast? = some '\\'))

/-- The characters of a label as they stand between the quotes. -/
def escapeQuotes (label : List Char) : List Char :=
  label.flatMap fun c => if c = '"' then ['\\', '"'] else [c]

/-- A label is escaped and put between quotes. -/
theorem quoteLabel_eq (label : String) :
    quoteLabel label = ['"'] ++ (escapeQuotes label.toList ++ ['"']) := rfl

/-- An escaped text never starts with a quote. -/
theorem head?_escapeQuotes_append {label rest : List Char}
    (h : label = [] → rest.head? ≠ some '"') : (escapeQuotes label ++ rest).head? ≠ some '"' := by
  cases label with
  | nil => exact h rfl
  | cons c label => by_cases hc : c = '"' <;> simp [escapeQuotes, hc]

/-- A character is read as itself, unless it is a quote or escapes one. -/
theorem readQuoted_cons {c : Char} {text : List Char} (hc : c ≠ '"')
    (h : c = '\\' → text.head? ≠ some '"') :
    readQuoted (c :: text) = (readQuoted text).map fun (label, rest) => (c :: label, rest) := by
  rw [readQuoted]
  · rintro rest rfl rfl
    exact h rfl rfl
  · exact hc

/-- Escaped characters are read as themselves, unless a backslash comes to stand before a quote
that is not part of them. -/
theorem readQuoted_escapeQuotes_append {label rest : List Char}
    (h : label.getLast? = some '\\' → rest.head? ≠ some '"') :
    readQuoted (escapeQuotes label ++ rest) =
      (readQuoted rest).map fun (more, rest) => (label ++ more, rest) := by
  induction label with
  | nil => simp [escapeQuotes]
  | cons c label ih =>
    have hlabel : label.getLast? = some '\\' → rest.head? ≠ some '"' := by
      intro hlast
      apply h
      rw [List.getLast?_cons, hlast, Option.getD_some]
    by_cases hc : c = '"'
    · subst hc
      change readQuoted ('\\' :: '"' :: (escapeQuotes label ++ rest)) = _
      rw [readQuoted, ih hlabel, Option.map_map]
      rfl
    · have hcons : escapeQuotes (c :: label) = c :: escapeQuotes label := by
        simp [escapeQuotes, hc]
      rw [hcons, List.cons_append, readQuoted_cons hc, ih hlabel, Option.map_map]
      · rfl
      · -- A backslash is followed by the next escaped character, or by the rest if it is the last.
        rintro rfl
        exact head?_escapeQuotes_append fun hnil => h (by rw [hnil, List.getLast?_singleton])

/-- A label is read from what was written for it, and then all of it, if and only if it does not end
in a backslash. -/
theorem readLabel_quoteLabel_eq_some_iff {label : String} {rest rest' : List Char} :
    readLabel (quoteLabel label ++ rest) = some (label, rest') ↔
      ¬EndsInBackslash label ∧ rest' = rest := by
  have hread : readLabel (quoteLabel label ++ rest) =
      (readQuoted (escapeQuotes label.toList ++ '"' :: rest)).map
        fun (label, rest) => (String.ofList label, rest) := by
    rw [quoteLabel_eq, List.append_assoc, readLabel, dropPrefix?_append_self, List.append_assoc]
    rfl
  rw [hread]
  by_cases hlast : EndsInBackslash label
  · -- The backslash makes the closing quote a character of the label that is read.
    obtain ⟨init, hinit⟩ := List.getLast?_eq_some_iff.mp hlast
    have hescape : escapeQuotes label.toList ++ '"' :: rest =
        escapeQuotes init ++ '\\' :: '"' :: rest := by
      simp [hinit, escapeQuotes]
    rw [hescape, readQuoted_escapeQuotes_append (by simp), readQuoted, Option.map_map,
      Option.map_map]
    refine iff_of_false (fun h => ?_) fun h => h.1 hlast
    obtain ⟨⟨more, rest''⟩, -, heq⟩ := Option.map_eq_some_iff.mp h
    have htoList := congrArg String.toList (Prod.ext_iff.mp heq).1
    rw [hinit] at htoList
    simp at htoList
  · rw [readQuoted_escapeQuotes_append fun h => absurd h hlast, readQuoted]
    simp [hlast, eq_comm]

example : readLabel (quoteLabel "say \\\"hi\\\"" ++ ['\n']) = some ("say \\\"hi\\\"", ['\n']) := by
  rfl

/-! ## Reading a graph -/

/-- The labels of the ends of an edge. -/
def Edge.labels (e : Edge) : String × String :=
  (e.source.label, e.target.label)

/-- The labels of an edge are read from its line, and then all of it, if and only if neither ends in
a backslash. -/
theorem readEdge_line_eq_some_iff {edge : Edge} {rest rest' : List Char} :
    readEdge (edge.line ++ rest) = some (edge.labels, rest') ↔
      ¬EndsInBackslash edge.source.label ∧ ¬EndsInBackslash edge.target.label ∧ rest' = rest := by
  have hline : edge.line ++ rest = [' ', ' '] ++ (quoteLabel edge.source.label ++
      (['-', '>'] ++ (quoteLabel edge.target.label ++ (['\n'] ++ rest)))) := by
    simp [Edge.line]
  rw [hline, readEdge, dropPrefix?_append_self]
  constructor
  · intro h
    simp only [Option.bind_eq_bind, Option.bind_eq_some_iff] at h
    obtain ⟨_, ⟨⟩, ⟨source, text₁⟩, hsource, text₂, htext₂, ⟨target, text₃⟩, htarget, text₄, htext₄,
      heq⟩ := h
    obtain ⟨⟨rfl, rfl⟩, rfl⟩ : (source = edge.source.label ∧ target = edge.target.label) ∧
        text₄ = rest' := by
      simpa only [Edge.labels, Option.pure_def, Option.some.injEq, Prod.mk.injEq] using heq
    obtain ⟨hnotSource, rfl⟩ := readLabel_quoteLabel_eq_some_iff.mp hsource
    obtain rfl := Option.some.inj ((dropPrefix?_append_self _ _).symm.trans htext₂)
    obtain ⟨hnotTarget, rfl⟩ := readLabel_quoteLabel_eq_some_iff.mp htarget
    obtain rfl := Option.some.inj ((dropPrefix?_append_self _ _).symm.trans htext₄)
    exact ⟨hnotSource, hnotTarget, rfl⟩
  · rintro ⟨hsource, htarget, rfl⟩
    simp only [Option.bind_eq_bind, Option.bind_some, dropPrefix?_append_self,
      readLabel_quoteLabel_eq_some_iff.mpr ⟨hsource, rfl⟩,
      readLabel_quoteLabel_eq_some_iff.mpr ⟨htarget, rfl⟩]
    rfl

/-- The step of the reader over the line of one edge. -/
theorem readEdges_line_append {edge : Edge} {rest : List Char} {more : List (String × String)} :
    readEdges (edge.line ++ rest) = some (edge.labels :: more) ↔
      (¬EndsInBackslash edge.source.label ∧ ¬EndsInBackslash edge.target.label) ∧
        readEdges rest = some more := by
  have hne : edge.line ++ rest ≠ ['\x7d', '\n'] := by simp [Edge.line]
  rw [readEdges, if_neg hne]
  split
  next hnone =>
    refine iff_of_false (fun h => nomatch h) fun ⟨hends, _⟩ => ?_
    rw [readEdge_line_eq_some_iff.mpr ⟨hends.1, hends.2, rfl⟩] at hnone
    cases hnone
  next labels rest' hsome =>
    constructor
    · intro h
      obtain ⟨more', hmore, heq⟩ := Option.map_eq_some_iff.mp h
      obtain ⟨rfl, rfl⟩ := List.cons.inj heq
      obtain ⟨hsource, htarget, rfl⟩ := readEdge_line_eq_some_iff.mp hsome
      exact ⟨⟨hsource, htarget⟩, hmore⟩
    · rintro ⟨hends, hmore⟩
      rw [readEdge_line_eq_some_iff.mpr ⟨hends.1, hends.2, rfl⟩] at hsome
      obtain ⟨rfl, rfl⟩ := Prod.ext_iff.mp (Option.some.inj hsome)
      rw [hmore, Option.map_some]

/-- All edges are read back if and only if no label ends in a backslash. -/
theorem readGraph_renderGraph_iff (edges : List Edge) :
    readGraph (renderGraph edges) = some (edges.map Edge.labels) ↔
      ∀ v ∈ ends edges, ¬EndsInBackslash v.label := by
  have htext : (renderGraph edges).toList =
      "digraph \x7b\n".toList ++ (edges.flatMap Edge.line ++ ['\x7d', '\n']) := by
    simp [renderGraph]
  rw [readGraph, htext, dropPrefix?_append_self, Option.bind_eq_bind, Option.bind_some]
  clear htext
  induction edges with
  | nil => simp [readEdges, ends]
  | cons edge edges ih =>
    rw [List.flatMap_cons, List.append_assoc, List.map_cons, readEdges_line_append, ends_cons]
    simp [ih, and_assoc]

/-! ## Reading the graph of a tree -/

namespace Expr

variable {e a : Expr}

/-- The literal, the name or the field that an expression is labelled with ends in a backslash. -/
def DetailEndsInBackslash (e : Expr) : Prop :=
  ∃ detail ∈ e.form.detail?, EndsInBackslash detail

/-- Nothing but what a label adds to the name of the form can end it in a backslash. -/
theorem endsInBackslash_label_iff {id : Option Nat} {location : Location} :
    EndsInBackslash (e.label id location) ↔ e.DetailEndsInBackslash := by
  have hname : ∃ c, e.form.name.toList.getLast? = some c ∧ c ≠ '\\' := by
    cases e.form <;> simp [Form.name]
  obtain ⟨c, hlast, hc⟩ := hname
  rw [EndsInBackslash, DetailEndsInBackslash, label.eq_def, String.toList_append,
    List.getLast?_append]
  cases e.form.detail? with
  | none => simp [List.getLast?_append, List.getLast?_cons, hlast, hc]
  | some detail =>
    cases hdetail : detail.toList.getLast? <;>
      simp [List.getLast?_cons, hdetail, EndsInBackslash]

/-- If an expression has children, then the vertices of everything it reaches are drawn, at one
location or another, and no others are. Without children there is nothing to draw. -/
theorem exists_mem_ends_edges_iff (e : Expr) (next : Nat) {p : Vertex → Prop} {q : Expr → Prop}
    (hpq : ∀ (m : Numbered) (location : Location), p (m.vertexAt location) ↔ q m.expr) :
    (∃ v ∈ ends (e.number next).1.edges, p v) ↔ e.children ≠ [] ∧ ∃ a, e.Reaches a ∧ q a := by
  constructor
  · rintro ⟨v, hv, hp⟩
    have hparent {m : Numbered} (hm : m ∈ (e.number next).1.toList) (hchildren : m.children ≠ []) :
        e.children ≠ [] := by
      intro hnil
      rcases reaches_iff.mp ((reaches_iff_numbered next).mpr ⟨m, hm, rfl⟩) with heq | ⟨c, hc, -⟩
      · rw [← heq, ← map_expr_children_of_mem hm, List.map_eq_nil_iff] at hnil
        exact hchildren hnil
      · rw [hnil] at hc
        cases hc
    rcases mem_ends_iff_drawn.mp hv with ⟨m, hm, hchildren, rfl⟩ | ⟨m, hm, ⟨n, location⟩, hn, rfl⟩
    · exact ⟨hparent hm hchildren, m.expr, (reaches_iff_numbered next).mpr ⟨m, hm, rfl⟩,
        (hpq m _).mp hp⟩
    · exact ⟨hparent hm (List.ne_nil_of_mem (List.of_mem_zip hn).1), n.expr,
        (reaches_iff_numbered next).mpr ⟨n, mem_number_of_drawn hm hn, rfl⟩, (hpq n _).mp hp⟩
  · rintro ⟨hchildren, a, ha, hq⟩
    rcases ha.eq_or_exists_parent with rfl | ⟨b, hb, hchild⟩
    · -- The root is drawn above its children.
      obtain ⟨m, hm, rfl⟩ := (reaches_iff_numbered next).mp ha
      rw [← map_expr_children_of_mem hm, ne_eq, List.map_eq_nil_iff] at hchildren
      exact ⟨_, mem_ends_iff_drawn.mpr (.inl ⟨m, hm, hchildren, rfl⟩), (hpq m _).mpr hq⟩
    · -- Everything else is drawn below its parent.
      obtain ⟨m, hm, rfl⟩ := (reaches_iff_numbered next).mp hb
      rw [← map_expr_children_of_mem hm] at hchild
      obtain ⟨n, hn, rfl⟩ := List.mem_map.mp hchild
      have hlength : m.children.length ≤ m.expr.drawnAt.length := by
        rw [length_drawnAt, ← map_expr_children_of_mem hm, List.length_map]
      rw [← List.map_fst_zip hlength] at hn
      obtain ⟨⟨n, location⟩, hzip, rfl⟩ := List.mem_map.mp hn
      exact ⟨_, mem_ends_iff_drawn.mpr (.inr ⟨m, hm, _, hzip, rfl⟩), (hpq n location).mpr hq⟩

/-- What is written for a label is read as that label, and reading ends at its closing quote, if and
only if the label does not end in a backslash. So the graph of a tree is read as the pairs of labels
that were drawn if and only if no literal, name or field of the tree ends in a backslash, or the
tree has no edges. -/
theorem readGraph_of_graph {limit : Nat} {edges : List Edge} (h : e.graph limit = .ok edges) :
    (∀ label rest rest', readLabel (quoteLabel label ++ rest) = some (label, rest') ↔
      ¬EndsInBackslash label ∧ rest' = rest) ∧
      (readGraph (renderGraph edges) = some (edges.map Edge.labels) ↔
        e.children = [] ∨ ∀ a, e.Reaches a → ¬a.DetailEndsInBackslash) := by
  refine ⟨fun label rest rest' => readLabel_quoteLabel_eq_some_iff, ?_⟩
  obtain ⟨n, hn, h⟩ := Outcome.bind_eq_ok h
  obtain ⟨-, -, hn⟩ := Outcome.bind_eq_ok hn
  obtain rfl := Except.ok.inj hn
  obtain rfl := Except.ok.inj h
  have hlabel (m : Numbered) (location : Location) :
      EndsInBackslash (m.vertexAt location).label ↔ m.expr.DetailEndsInBackslash := by
    rw [Numbered.vertexAt, endsInBackslash_label_iff]
  have hdrawn := e.exists_mem_ends_edges_iff 0 (p := fun v => EndsInBackslash v.label) hlabel
  rw [readGraph_renderGraph_iff]
  simpa [imp_iff_not_or] using not_congr hdrawn

/-- An array with a text that has quotes and a backslash inside. Its graph is read back. -/
theorem readGraph_of_graph_quotes :
    let e := Build.array [Build.string "say \\\"hi\\\""]
    ∃ edges, e.graph 512 = .ok edges ∧ (∀ a, e.Reaches a → ¬a.DetailEndsInBackslash) ∧
      edges.map Edge.labels = [("[] #0 Array", "[] #1 LiteralString say \\\"hi\\\"")] ∧
      readGraph (renderGraph edges) = some (edges.map Edge.labels) := by
  intro e
  obtain ⟨edges, hgraph, hlabels⟩ : ∃ edges : List Edge, e.graph 512 = .ok edges ∧
      edges.map Edge.labels = [("[] #0 Array", "[] #1 LiteralString say \\\"hi\\\"")] :=
    ⟨_, rfl, rfl⟩
  have hall : ∀ a ∈ e.preorder, ∀ detail ∈ a.form.detail?, ¬EndsInBackslash detail := by
    decide +kernel
  have hdetails : ∀ a, e.Reaches a → ¬a.DetailEndsInBackslash := by
    rintro a ha ⟨detail, hdetail, hends⟩
    exact hall a (mem_preorder_iff.mpr ha) detail hdetail hends
  exact ⟨edges, hgraph, hdetails, hlabels, (readGraph_of_graph hgraph).2.mpr (.inr hdetails)⟩

/-- An array with the path `C:\` as its only element. Its closing quote is read as part of the
label, and the text ends before the label does. -/
theorem readGraph_trailingBackslash :
    let e := Build.array [.ofForm (.string ⟨"C:\\", .verbatimDouble, "", ""⟩)]
    ∃ edges, e.graph 512 = .ok edges ∧
      edges.map Edge.labels = [("[] #0 Array", "[] #1 LiteralString C:\\")] ∧
      readGraph (renderGraph edges) = none := by
  intro e
  exact ⟨_, rfl, rfl, by decide +kernel⟩

end Expr

end JsonnetTree
