import JsonnetTree.Document.Load
import JsonnetTree.Expr.Build
import JsonnetTree.Proofs.Document.Bounds

/-!
# The style of a document

Documents of one tree may differ in style: the members of a record come in any order, members that
no field takes may stand among them, and a member may be missing if it holds what the record takes
for its field then. None of this changes what is read, wherever in a document it is done
(`Tree.load_eq_of_edits`).
-/

namespace JsonnetTree

open Json

variable {α β ρ : Type}

/-! ## Values that are passed over -/

namespace Json.Value

/-- A value that does not break off anywhere. -/
inductive IsWhole : Value → Prop
  | null : IsWhole .null
  | bool (b : Bool) : IsWhole (.bool b)
  | number (n : Number) : IsWhole (.number n)
  | string (t : Text) : IsWhole (.string t)
  | array {items : List Value} (h : ∀ v ∈ items, IsWhole v) : IsWhole (.array items .closed)
  | object {members : List (Text × Value)} (h : ∀ m ∈ members, IsWhole m.2) :
      IsWhole (.object members .closed)

/-- Items are passed over one after the other. -/
theorem passItems_eq_ok {items : List Value} (h : ∀ v ∈ items, v.pass = .ok ()) :
    passItems items = .ok () := by
  induction items with
  | nil => rfl
  | cons v items ih =>
    obtain ⟨hv, hrest⟩ := List.forall_mem_cons.mp h
    simp only [passItems, hv, bind, Except.bind]
    exact ih hrest

/-- Members are passed over one after the other. -/
theorem passMembers_eq_ok {members : List (Text × Value)} (h : ∀ m ∈ members, m.2.pass = .ok ()) :
    passMembers members = .ok () := by
  induction members with
  | nil => rfl
  | cons m members ih =>
    obtain ⟨hm, hrest⟩ := List.forall_mem_cons.mp h
    simp only [passMembers, hm, bind, Except.bind]
    exact ih hrest

/-- A value that does not break off can be passed over, whatever it holds. -/
theorem IsWhole.pass_eq_ok {v : Value} (h : v.IsWhole) : v.pass = .ok () := by
  induction h with
  | null | bool | number | string => rfl
  | array _ ih => simp only [pass, passItems_eq_ok ih, Ending.check, bind, Except.bind]
  | object _ ih => simp only [pass, passMembers_eq_ok ih, Ending.check, bind, Except.bind]

end Json.Value

/-! ## Changes of style -/

/-- One change of the style of a value that a codec reads. A change in a record is made to its first
member, since any other can be brought there. -/
inductive Codec.Edit : {β : Type} → Codec β → Value → Value → Prop
  /-- The members of a record come in another order. -/
  | reorder {ρ : Type} {r : Record ρ} {members members' : List (Text × Value)} {ending : Ending}
      (hperm : members.Perm members') :
      Edit r.codec (.object members ending) (.object members' ending)
  /-- A member that has the name of no field is added. There may be others of its name. -/
  | insert {ρ : Type} {r : Record ρ} {members : List (Text × Value)} {ending : Ending}
      {name : String} {v : Value} (hname : name ∉ r.fields.names) (hv : v.IsWhole) :
      Edit r.codec (.object members ending) (.object ((.plain name, v) :: members) ending)
  /-- A member is left out that holds what the record takes for its field then. -/
  | drop {ρ β : Type} {r : Record ρ} {members : List (Text × Value)} {ending : Ending}
      {before : List String} {field : Field β} {v : Value} {b : β}
      (hfield : r.fields.Has before field) (hname : field.name ∉ before)
      (habsence : field.absence = .optional b ∨ field.absence = .allowed b)
      (hread : field.codec.read v = .ok b) :
      Edit r.codec (.object ((.plain field.name, v) :: members) ending) (.object members ending)
  /-- A change is made to the value of a member. -/
  | member {ρ β : Type} {r : Record ρ} {members : List (Text × Value)} {ending : Ending}
      {before : List String} {field : Field β} {v v' : Value}
      (hfield : r.fields.Has before field) (hname : field.name ∉ before)
      (hedit : Edit field.codec v v') :
      Edit r.codec (.object ((.plain field.name, v) :: members) ending)
        (.object ((.plain field.name, v') :: members) ending)
  /-- A change is made to a field of a record that is written as an array. -/
  | item {ρ β : Type} {r : Record ρ} {items more : List Value} {ending : Ending}
      {before : List String} {field : Field β} {v v' : Value}
      (hfield : r.fields.Has before field) (hitems : items.length = before.length)
      (hedit : Edit field.codec v v') :
      Edit r.codec (.array (items ++ v :: more) ending) (.array (items ++ v' :: more) ending)
  /-- A change is made to an element of a list. -/
  | element {β : Type} {c : Codec β} {items more : List Value} {ending : Ending} {v v' : Value}
      (hedit : Edit c v v') :
      Edit c.list (.array (items ++ v :: more) ending) (.array (items ++ v' :: more) ending)
  /-- A change is made to what may be absent. -/
  | present {β : Type} {c : Codec β} {v v' : Value} (hedit : Edit c v v') : Edit c.option v v'
  /-- A change is made to the payload of a form. -/
  | payload {α ρ : Type} {e : Codec α} {r : Record ρ} {tag : String} {make : ρ → Form α}
      {v v' : Value} (hfind : (Form.variants e).find? (·.tag == tag) = some (r.variant tag make))
      (hedit : Edit r.codec v v') :
      Edit (Form.codec e) (Variant.writeTagged tag v) (Variant.writeTagged tag v')
  /-- A change is made to an expression. -/
  | expr {v v' : Value} (hedit : Edit (Expr.record Expr.codec).codec v v') : Edit Expr.codec v v'
  /-- A change is made to a chain of clauses. -/
  | clauses {α : Type} {e : Codec α} {v v' : Value}
      (hedit : Edit (Clauses.record e (Clauses.codec e)).codec v v') : Edit (Clauses.codec e) v v'

/-- A member that its field reads as what stands for it when it is left out can be left out. -/
theorem Fields.Reads.drop {ts : List Type} {fields : Fields ts} {before : List String}
    {field : Field β} (hfield : fields.Has before field) (hname : field.name ∉ before) {b : β}
    (habsence : field.absence = .optional b ∨ field.absence = .allowed b) {v : Value}
    (hread : field.codec.read v = .ok b) {members : List (Text × Value)} {row : Row ts}
    (h : fields.Reads ((.plain field.name, v) :: members) row) : fields.Reads members row := by
  have hold : ∀ m ∈ [(Text.plain field.name, v)], m.1 = .plain field.name := by simp
  refine Reads.exchange hfield hname hold (List.forall_mem_nil _) (fun more c hc => ?_) h
  cases more with
  | nil =>
    obtain rfl : b = c := Except.ok.inj (hread.symm.trans hc)
    exact habsence
  | cons => cases hc

/-- The value of a member can be exchanged for another one that is read alike. -/
theorem Fields.Reads.change {ts : List Type} {fields : Fields ts} {before : List String}
    {field : Field β} (hfield : fields.Has before field) (hname : field.name ∉ before)
    {v v' : Value} (hread : ∀ b, field.codec.read v = .ok b → field.codec.read v' = .ok b)
    {members : List (Text × Value)} {row : Row ts}
    (h : fields.Reads ((.plain field.name, v) :: members) row) :
    fields.Reads ((.plain field.name, v') :: members) row := by
  have hown (w : Value) : ∀ m ∈ [(Text.plain field.name, w)], m.1 = .plain field.name := by simp
  refine Reads.exchange hfield hname (hown v) (hown v') (fun more c hc => ?_) h
  cases more with
  | nil => exact hread c hc
  | cons => cases hc

/-- A field of a record that is written as an array can be exchanged for another value that is read
alike. -/
theorem Fields.readItems_exchange {ts : List Type} {fields : Fields ts} {before : List String}
    {field : Field β} (hfield : fields.Has before field) {v v' : Value}
    (hread : ∀ b, field.codec.read v = .ok b → field.codec.read v' = .ok b)
    {short : Nat → Complaint} {ending : Ending} {items more : List Value}
    (hitems : items.length = before.length) {index : Nat} {row : Row ts}
    (h : fields.readItems short ending index (items ++ v :: more) = .ok row) :
    fields.readItems short ending index (items ++ v' :: more) = .ok row := by
  induction hfield generalizing items index with
  | head =>
    obtain rfl := List.eq_nil_of_length_eq_zero hitems
    obtain ⟨b, hb, h⟩ := Outcome.bind_eq_ok h
    simp only [List.nil_append, readItems, hread b hb]
    exact h
  | tail hfield ih =>
    cases items with
    | nil => cases hitems
    | cons w items =>
      obtain ⟨b, hb, h⟩ := Outcome.bind_eq_ok h
      obtain ⟨bs, hbs, h⟩ := Outcome.bind_eq_ok h
      simp only [List.cons_append, readItems, hb, ih hread (Nat.succ.inj hitems) hbs]
      exact h

namespace Codec

variable {c : Codec β} {v v' : Value} {b : β}

/-- An element of a list can be exchanged for another value that is read alike. -/
theorem readItems_exchange (hread : ∀ b, c.read v = .ok b → c.read v' = .ok b)
    {items more : List Value} {bs : List β} (h : readItems c.read (items ++ v :: more) = .ok bs) :
    readItems c.read (items ++ v' :: more) = .ok bs := by
  induction items generalizing bs with
  | nil =>
    obtain ⟨b, hb, h⟩ := Outcome.bind_eq_ok h
    simp only [List.nil_append, readItems, hread b hb]
    exact h
  | cons w items ih =>
    obtain ⟨b, hb, h⟩ := Outcome.bind_eq_ok h
    obtain ⟨bs, hbs, h⟩ := Outcome.bind_eq_ok h
    simp only [List.cons_append, readItems, hb, ih hbs]
    exact h

/-- Only arrays and objects are changed, and they stay such. -/
theorem Edit.ne_null (h : c.Edit v v') : v ≠ .null ∧ v' ≠ .null := by
  induction h with
  | reorder | insert | drop | member | item | element | payload => exact ⟨nofun, nofun⟩
  | present _ ih | expr _ ih | clauses _ ih => exact ih

/-- What may be absent is there unless it is null. -/
theorem option_read_of_ne_null (h : v ≠ .null) : c.option.read v = some <$> c.read v := by
  cases v with
  | null => exact absurd rfl h
  | _ => rfl

/-- A change of style does not change what is read. -/
theorem Edit.read_eq_ok (h : c.Edit v v') (hread : c.read v = .ok b) : c.read v' = .ok b := by
  induction h with
  | reorder hperm =>
    obtain ⟨hending, row, hrow, hx⟩ := Record.read_object_eq_ok_iff.mp hread
    exact Record.read_object_eq_ok_iff.mpr ⟨hending, row, hrow.perm hperm, hx⟩
  | insert hname hv =>
    obtain ⟨hending, row, hrow, hx⟩ := Record.read_object_eq_ok_iff.mp hread
    exact Record.read_object_eq_ok_iff.mpr ⟨hending, row, hrow.insert hv.pass_eq_ok hname, hx⟩
  | drop hfield hname habsence hvalue =>
    obtain ⟨hending, row, hrow, hx⟩ := Record.read_object_eq_ok_iff.mp hread
    exact Record.read_object_eq_ok_iff.mpr
      ⟨hending, row, hrow.drop hfield hname habsence hvalue, hx⟩
  | member hfield hname _ ih =>
    obtain ⟨hending, row, hrow, hx⟩ := Record.read_object_eq_ok_iff.mp hread
    exact Record.read_object_eq_ok_iff.mpr
      ⟨hending, row, hrow.change hfield hname (fun _ => ih), hx⟩
  | item hfield hitems _ ih =>
    obtain ⟨row, hrow, hx⟩ := Outcome.bind_eq_ok hread
    have hrow' := Fields.readItems_exchange hfield (fun _ => ih) hitems hrow
    simp only [Record.codec, hrow']
    exact hx
  | element _ ih =>
    obtain ⟨bs, hbs, h⟩ := Outcome.bind_eq_ok hread
    simp only [list, readItems_exchange (fun _ => ih) hbs]
    exact h
  | present hedit ih =>
    rw [option_read_of_ne_null hedit.ne_null.1] at hread
    rw [option_read_of_ne_null hedit.ne_null.2]
    obtain ⟨a, ha, rfl⟩ := Outcome.map_eq_ok hread
    rw [ih ha]
    rfl
  | payload hfind _ ih =>
    have hform (w : Value) := Variant.read_writeTagged hfind w
    obtain ⟨x, hx, rfl⟩ := Outcome.map_eq_ok ((hform _).symm.trans hread)
    refine (hform _).trans ?_
    rw [ih hx]
    rfl
  | expr _ ih =>
    rw [Expr.read_codec] at hread ⊢
    exact ih hread
  | clauses _ ih =>
    rw [Clauses.read_codec] at hread ⊢
    exact ih hread

/-- Any number of changes of style does not change what is read. -/
theorem read_eq_ok_of_edits (h : Relation.ReflTransGen c.Edit v v') (hread : c.read v = .ok b) :
    c.read v' = .ok b := by
  induction h with
  | refl => exact hread
  | tail _ hedit ih => exact hedit.read_eq_ok ih

end Codec

namespace Tree

/-- A document that ends with its value is read as that value is. -/
theorem ofChars_eq_read {text : List Char} {v : Value} (h : Reading.ofChars text = ⟨v, false⟩) :
    Tree.ofChars text = Tree.codec.read v := by
  simp only [Tree.ofChars, h]
  cases Tree.codec.read v <;> rfl

/-- A value that a tree is read from can be changed in style anywhere, and it is still read as that
tree. Documents that hold the two values are loaded alike, as long as both keep the limit on
nesting. -/
theorem load_eq_of_edits {v v' : Value} {t : Tree} (hread : Tree.codec.read v = .ok t)
    (h : Relation.ReflTransGen Tree.codec.Edit v v') :
    Tree.codec.read v' = .ok t ∧
      ∀ (maxDepth : Nat) (file text text' : String),
        Reading.ofChars text.toList = ⟨v, false⟩ → Reading.ofChars text'.toList = ⟨v', false⟩ →
        bracketDepth text.toList ≤ nestingLimit maxDepth →
        bracketDepth text'.toList ≤ nestingLimit maxDepth →
        Tree.load maxDepth file text' = Tree.load maxDepth file text := by
  have hread' := Codec.read_eq_ok_of_edits h hread
  refine ⟨hread', fun maxDepth file text text' htext htext' hdepth hdepth' => ?_⟩
  rw [Tree.load, Tree.load, if_neg (Nat.not_lt.mpr hdepth), if_neg (Nat.not_lt.mpr hdepth'),
    ofChars_eq_read htext, ofChars_eq_read htext', hread, hread']

/-- An array whose element is changed: its empty fodder is left out, and two members of one unknown
name are added, one of them with half a surrogate pair. Around it, empty fodder is left out and
members change places. -/
theorem load_eq_of_edits_array :
    let text := "\x7b\"shape\":\"raw\",\"root\":\x7b\"fodder\":[],\"kind\":\x7b\"array\":" ++
      "\x7b\"elements\":[\x7b\"comma_fodder\":[],\"expr\":\x7b\"kind\":\"dollar\"\x7d\x7d]" ++
      "\x7d\x7d\x7d\x7d"
    let text' := "\x7b\"root\":\x7b\"kind\":\x7b\"array\":\x7b\"elements\":[\x7b\"x\":" ++
      "[null,\"\\ud800\"],\"x\":\x7b\x7d,\"expr\":\x7b\"kind\":\"dollar\"\x7d\x7d]" ++
      "\x7d\x7d\x7d,\"shape\":\"raw\"\x7d"
    let t : Tree := ⟨.raw, Build.array [Build.dollar], []⟩
    ∃ v v', Reading.ofChars text.toList = ⟨v, false⟩ ∧ Reading.ofChars text'.toList = ⟨v', false⟩ ∧
      Relation.ReflTransGen Tree.codec.Edit v v' ∧ Tree.codec.read v = .ok t ∧
      Tree.codec.read v' = .ok t ∧ Tree.load 0 "a.json" text' = Tree.load 0 "a.json" text := by
  intro text text' t
  let dollar : Value := .ofMembers [("kind", .ofString "dollar")]
  let element : Value := .ofMembers [("comma_fodder", .ofList []), ("expr", dollar)]
  let element' : Value := .ofMembers
    [("x", .ofList [.null, .string .unpaired]), ("x", .ofMembers []), ("expr", dollar)]
  let kind (element : Value) : Value :=
    Variant.writeTagged "array" (.ofMembers [("elements", .ofList [element])])
  let v : Value := .ofMembers
    [("shape", .ofString "raw"),
      ("root", .ofMembers [("fodder", .ofList []), ("kind", kind element)])]
  let document (root : Value) : Value := .ofMembers [("root", root), ("shape", .ofString "raw")]
  let v' : Value := document (.ofMembers [("kind", kind element')])
  have helement :
      Relation.ReflTransGen (Element.record Expr.codec).codec.Edit element element' := by
    have hcomma : (Element.record Expr.codec).fields.Has ["expr"]
      ⟨"comma_fodder", Fodder.codec, .allowed []⟩ := .tail .head
    have hobject : (Value.ofMembers []).IsWhole := .object (List.forall_mem_nil _)
    have harray : (Value.ofList [.null, .string .unpaired]).IsWhole :=
      .array (List.forall_mem_cons.mpr ⟨.null, List.forall_mem_singleton.mpr (.string _)⟩)
    exact .head (.drop hcomma (by decide) (.inr rfl) rfl) <|
      .head (.insert (by decide) hobject) <| .single (.insert (by decide) harray)
  have hroot : Tree.record.fields.Has ["shape"] ⟨"root", Expr.codec, .refused⟩ := .tail .head
  have hinner (a b : Value) (h : (Element.record Expr.codec).codec.Edit a b) :
      Tree.codec.Edit (document (.ofMembers [("kind", kind a)]))
        (document (.ofMembers [("kind", kind b)])) := by
    have hkind : (Expr.record Expr.codec).fields.Has ["loc", "fodder"]
      ⟨"kind", Form.codec Expr.codec, .refused⟩ := .tail (.tail .head)
    have helements : (ArrayLiteral.record Expr.codec).fields.Has []
      ⟨"elements", (Element.record Expr.codec).codec.list, .allowed []⟩ := .head
    exact .member hroot (by decide) <| .expr <| .member hkind (by decide) <|
      .payload rfl <| .member helements (by decide) <| @Codec.Edit.element _ _ [] [] _ _ _ h
  have hedits : Relation.ReflTransGen Tree.codec.Edit v v' := by
    have hfodder : (Expr.record Expr.codec).fields.Has ["loc"]
      ⟨"fodder", Fodder.codec, .allowed []⟩ := .tail .head
    exact .head (.reorder (.swap ..)) <|
      .head (.member hroot (by decide) <| .expr <| .drop hfodder (by decide) (.inr rfl) rfl) <|
      helement.lift _ hinner
  have htokens : tokens text.toList = v.toTokens := by decide +kernel
  have htokens' : tokens text'.toList = v'.toTokens := by decide +kernel
  have htext : Reading.ofChars text.toList = ⟨v, false⟩ := by
    rw [Reading.ofChars, htokens]
    rfl
  have htext' : Reading.ofChars text'.toList = ⟨v', false⟩ := by
    rw [Reading.ofChars, htokens']
    rfl
  have hread : Tree.codec.read v = .ok t := by cbv
  obtain ⟨hread', hload⟩ := load_eq_of_edits hread hedits
  exact ⟨v, v', htext, htext', hedits, hread, hread',
    hload 0 "a.json" text text' htext htext' (by decide +kernel) (by decide +kernel)⟩

end Tree

end JsonnetTree
