import JsonnetTree.Document.Load
import JsonnetTree.Expr.Build
import JsonnetTree.Import
import JsonnetTree.Proofs.Document.Height
import JsonnetTree.Proofs.Json.Nesting

/-!
# The depth of what is loaded

A document that breaks off leaves its outermost value open, and no record is read from an open
value. So the text of a document that is loaded has been read to its end, and the count of its
brackets is the nesting of its value (`Tree.exists_complete_of_ofChars`). Since expressions take
three levels of nesting each, this bounds how far below the root any expression can be.
-/

namespace JsonnetTree

open Json

/-! ## Values that are left open -/

namespace Json

/-- A value that is missing, or an array or object without its closing bracket. -/
def Value.IsOpen : Value → Prop
  | .array _ ending | .object _ ending => ending ≠ .closed
  | .missing _ | .uncoloned _ => True
  | _ => False

/-- What is around an open value is open too. -/
theorem isOpen_enclose {v : Value} (h : v.IsOpen) (frames : List Frame) :
    (enclose frames v).IsOpen := by
  induction frames generalizing v with
  | nil => exact h
  | cons frame frames ih =>
    cases frame with
    | array items => exact ih Ending.noConfusion
    | object members key => exact ih Ending.noConfusion

/-- If no more tokens come, the value is left open, or it is complete, or something followed it. -/
theorem State.isOpen_finish (state : State) :
    state.finish.value.IsOpen ∨ state.finish.trailing = true ∨ ∃ v, state = .complete v [] := by
  cases state with
  | wantValue frames | wantItem frames =>
    exact .inl (isOpen_enclose (v := .missing none) trivial frames)
  | wantKey members frames => exact .inl (isOpen_enclose Ending.noConfusion frames)
  | wantColon members key frames =>
    exact .inl (isOpen_enclose Ending.noConfusion frames)
  | complete v frames =>
    cases frames with
    | nil => exact .inr (.inr ⟨v, rfl⟩)
    | cons frame frames =>
      cases frame with
      | array items | object members key => exact .inl (isOpen_enclose Ending.noConfusion frames)
  | stopped v => exact .inr (.inl rfl)

end Json

/-- A row is read only from an array with a closing bracket. -/
theorem Fields.eq_closed_of_readItems {short : Nat → Complaint} {ending : Ending} :
    {ts : List Type} → (fields : Fields ts) → {index : Nat} → {items : List Value} →
    {row : Row ts} → fields.readItems short ending index items = .ok row → ending = .closed
  | _, .nil, _, [], _, h => by
    obtain ⟨_, hcheck, -⟩ := Outcome.bind_eq_ok h
    exact Ending.eq_closed_of_check hcheck
  | _, .nil, _, _ :: _, _, h => by cases h
  | _, .cons field rest, _, v :: items, _, h => by
    obtain ⟨_, -, h⟩ := Outcome.bind_eq_ok h
    obtain ⟨_, hrest, -⟩ := Outcome.bind_eq_ok h
    exact eq_closed_of_readItems rest hrest
  | _, .cons field rest, _, [], _, h => by
    obtain ⟨_, hcheck, -⟩ := Outcome.bind_eq_ok h
    exact Ending.eq_closed_of_check hcheck

/-- No record is read from an open value. -/
theorem Record.not_isOpen_of_read {ρ : Type} {r : Record ρ} {v : Value} {x : ρ}
    (h : r.codec.read v = .ok x) : ¬v.IsOpen := by
  cases v with
  | object members ending =>
    obtain ⟨_, -, h⟩ := Outcome.bind_eq_ok h
    obtain ⟨_, hcheck, -⟩ := Outcome.bind_eq_ok h
    exact not_not.mpr (Ending.eq_closed_of_check hcheck)
  | array items ending =>
    obtain ⟨row, hrow, -⟩ := Outcome.bind_eq_ok h
    exact not_not.mpr (r.fields.eq_closed_of_readItems hrow)
  | _ => exact absurd h (Value.refuse_ne_ok _ _ _)

/-- A tree is read only from a text that ends with its value. -/
theorem Tree.exists_complete_of_ofChars {text : List Char} {t : Tree}
    (h : Tree.ofChars text = .ok t) :
    ∃ v, (tokens text).foldl State.step .start = .complete v [] ∧ Tree.codec.read v = .ok t := by
  obtain ⟨read, hread, htrailing⟩ := Outcome.bind_eq_ok h
  split at htrailing
  next => cases htrailing
  next hnone =>
    obtain rfl := Except.ok.inj htrailing
    rcases ((tokens text).foldl State.step .start).isOpen_finish with hopen | htrailing | ⟨v, hv⟩
    · exact absurd hopen (Record.not_isOpen_of_read hread)
    · exact absurd htrailing hnone
    · refine ⟨v, hv, ?_⟩
      rwa [Reading.ofChars, hv] at hread

/-! ## Expressions below others -/

/-- `e.Below n a` says that `a` is `n` levels below `e`: each level goes from an expression to one
that it holds, be it a child or the file operand of an import. -/
inductive Expr.Below : Expr → Nat → Expr → Prop
  | refl (e : Expr) : Below e 0 e
  | part {e part a : Expr} {n : Nat} (hpart : part ∈ e.form.parts) (h : Below part n a) :
      Below e (n + 1) a

namespace Expr

variable {e c a : Expr} {n : Nat}

/-- What is below a child is one level further below the parent. -/
theorem Below.child (hc : c ∈ e.children) (h : c.Below n a) : e.Below (n + 1) a :=
  .part (Form.mem_parts_of_mem_children hc) h

/-- What is below the file operand of an import is one level further below the import. -/
theorem Below.file {kind : ImportKind} {operand : Expr} (hfile : e.import? = some (kind, operand))
    (h : operand.Below n a) : e.Below (n + 1) a := by
  refine .part ?_ h
  rw [import?] at hfile
  split at hfile
  next hform =>
    obtain rfl := (Prod.mk.inj (Option.some.inj hfile)).2
    simp [hform, Form.parts]
  next hform =>
    obtain rfl := (Prod.mk.inj (Option.some.inj hfile)).2
    simp [hform, Form.parts]
  next => cases hfile

/-- An expression has more levels than there are down to any expression below it. -/
theorem Below.lt_height (h : e.Below n a) : n < e.height := by
  induction h with
  | refl e =>
    rw [e.height_eq]
    omega
  | part hpart _ ih =>
    have hlt := height_lt_of_mem_parts hpart
    omega

end Expr

/-- The root of a tree has at most a third of the levels that the document is nested. -/
theorem Tree.three_mul_height_le {v : Value} {t : Tree} (h : Tree.codec.read v = .ok t) :
    3 * t.root.height ≤ v.nesting + 1 := by
  obtain ⟨⟨shape, root, finalFodder, ⟨⟩⟩, rfl, -, hroot, -⟩ := Record.read_eq_ok h
  rcases hroot with ⟨w, hw, hread⟩ | habsent | habsent
  · have hexpr : (Expr.codecUpTo (w.nesting + 1)).read w = .ok root := hread
    have hheight := Expr.three_mul_height_le hexpr
    change 3 * root.height ≤ _
    omega
  · cases habsent
  · cases habsent

/-- A tree is loaded only if the brackets of its text are within the limit. -/
theorem Tree.ofChars_of_load {maxDepth : Nat} {file text : String} {t : Tree}
    (h : Tree.load maxDepth file text = .ok t) :
    bracketDepth text.toList ≤ nestingLimit maxDepth ∧ Tree.ofChars text.toList = .ok t := by
  unfold Tree.load at h
  by_cases hdepth : nestingLimit maxDepth < bracketDepth text.toList
  · rw [if_pos hdepth] at h
    cases h
  · rw [if_neg hdepth] at h
    obtain ⟨read, hread, h⟩ := Outcome.bind_eq_ok h
    obtain ⟨_, -, h⟩ := Outcome.bind_eq_ok h
    obtain rfl := Except.ok.inj h
    exact ⟨Nat.le_of_not_lt hdepth, Outcome.mapError_eq_ok hread⟩

/-- Every expression in a tree that is loaded is within the bound on the depth, the root being at
depth zero. -/
theorem Tree.depth_le_depthBound_of_load {maxDepth n : Nat} {file text : String} {t : Tree}
    {a : Expr} (h : Tree.load maxDepth file text = .ok t) (ha : t.root.Below n a) :
    n ≤ depthBound maxDepth := by
  obtain ⟨hdepth, hread⟩ := ofChars_of_load h
  obtain ⟨v, hv, hcodec⟩ := exists_complete_of_ofChars hread
  rw [bracketDepth_eq_nesting hv] at hdepth
  have hheight := three_mul_height_le hcodec
  have hlt := ha.lt_height
  rw [depthBound]
  omega

/-- A document whose tree and import are arrays and whose root has an unknown member. The file
operand of the import is two levels below the root. -/
theorem Tree.depth_le_depthBound_of_load_import :
    let text := "[\"raw\", \x7b\"kind\": \x7b\"parens\": \x7b\"inner\": \x7b\"kind\": " ++
      "\x7b\"import\": [\x7b\"kind\": \"literal_null\"\x7d]\x7d\x7d\x7d\x7d, \"note\": [1]\x7d]"
    let t : Tree := ⟨.raw, Build.parens (.ofForm (.importCode Build.null)), []⟩
    Tree.load 0 "a.json" text = .ok t ∧ t.root.Below 2 Build.null ∧ 2 ≤ depthBound 0 := by
  intro text t
  have htokens : tokens text.toList =
      [.openArray, .text (.plain "raw"), .comma, .openObject, .text (.plain "kind"), .colon,
        .openObject, .text (.plain "parens"), .colon, .openObject, .text (.plain "inner"), .colon,
        .openObject, .text (.plain "kind"), .colon, .openObject, .text (.plain "import"), .colon,
        .openArray, .openObject, .text (.plain "kind"), .colon, .text (.plain "literal_null"),
        .closeObject, .closeArray, .closeObject, .closeObject, .closeObject, .closeObject, .comma,
        .text (.plain "note"), .colon, .openArray, .number (.ofNat 1), .closeArray, .closeObject,
        .closeArray] := by decide +kernel
  have hread : Tree.ofChars text.toList = .ok t := by
    rw [ofChars, Reading.ofChars, htokens]
    rfl
  have hdepth : bracketDepth text.toList ≤ nestingLimit 0 := by decide +kernel
  have hload : Tree.load 0 "a.json" text = .ok t := by
    rw [Tree.load, if_neg (Nat.not_lt.mpr hdepth), hread]
    rfl
  have hbelow : t.root.Below 2 Build.null :=
    .child (List.mem_singleton.mpr rfl) (.file rfl (.refl _))
  exact ⟨hload, hbelow, depth_le_depthBound_of_load hload hbelow⟩

end JsonnetTree
