import JsonnetTree.Document.Schema
import JsonnetTree.Proofs.Codec.RoundTrip

/-!
# Relations that follow the schema

Many facts about tree documents are proved in the same way: they hold for the codecs of simple
data, they are kept by lists and records, and so they hold for all parts of expressions. This
module goes through the schema once, for any such relation between a codec of expressions and
another one.
-/

namespace JsonnetTree

open Json

variable {α : Type}

/-! ## Simple data -/

/-- Positions are read back. -/
theorem Position.codec_solid (p : Position) : Position.record.codec.Solid Position.record.codec p :=
  Record.solid (by decide) rfl
    ⟨rfl, (Codec.word32_solid p.line).toReadsBack, rfl, (Codec.word32_solid p.column).toReadsBack,
      trivial⟩

/-- Locations are read back. -/
theorem Location.codec_solid (l : Location) : Location.codec.Solid Location.codec l :=
  Record.solid (by decide) rfl
    ⟨rfl, (Codec.string_solid l.file).toReadsBack, rfl, l.start.codec_solid.toReadsBack, rfl,
      l.stop.codec_solid.toReadsBack, trivial⟩

/-- Kinds of fodder are read back. -/
theorem FodderKind.codec_solid (k : FodderKind) :
    (Codec.word FodderKind.all FodderKind.tag).Solid (.word FodderKind.all FodderKind.tag) k :=
  Codec.word_solid (by cases k <;> decide) (by cases k <;> decide)

/-- Binary operators are read back. -/
theorem BinaryOp.codec_solid (op : BinaryOp) :
    (Codec.word BinaryOp.all BinaryOp.tag).Solid (.word BinaryOp.all BinaryOp.tag) op :=
  Codec.word_solid (by cases op <;> decide) (by cases op <;> decide)

/-- Unary operators are read back. -/
theorem UnaryOp.codec_solid (op : UnaryOp) :
    (Codec.word UnaryOp.all UnaryOp.tag).Solid (.word UnaryOp.all UnaryOp.tag) op :=
  Codec.word_solid (by cases op <;> decide) (by cases op <;> decide)

/-- Visibilities are read back. -/
theorem Visibility.codec_solid (v : Visibility) :
    (Codec.word Visibility.all Visibility.tag).Solid (.word Visibility.all Visibility.tag) v :=
  Codec.word_solid (by cases v <;> decide) (by cases v <;> decide)

/-- Kinds of string literal are read back. -/
theorem StringKind.codec_solid (k : StringKind) :
    (Codec.word StringKind.all StringKind.tag).Solid (.word StringKind.all StringKind.tag) k :=
  Codec.word_solid (by cases k <;> decide) (by cases k <;> decide)

/-- Kinds of member are read back. -/
theorem MemberKind.codec_solid (k : MemberKind) :
    (Codec.word MemberKind.all MemberKind.tag).Solid (.word MemberKind.all MemberKind.tag) k :=
  Codec.word_solid (by cases k <;> decide) (by cases k <;> decide)

/-- Shapes are read back. -/
theorem Shape.codec_solid (s : Shape) :
    (Codec.word Shape.all Shape.tag).Solid (.word Shape.all Shape.tag) s :=
  Codec.word_solid (by cases s <;> decide) (by cases s <;> decide)

/-- Elements of fodder are read back. -/
theorem FodderElement.codec_solid (f : FodderElement) :
    FodderElement.record.codec.Solid FodderElement.record.codec f := by
  have hcomment : Codec.string.list.Solid Codec.string.list f.comment :=
    Codec.list_solid fun s _ => (Codec.string_solid s).toReadsBack
  exact Record.solid (by decide) rfl
    ⟨rfl, f.kind.codec_solid.toReadsBack, rfl, (Codec.word64_solid f.blanks).toReadsBack, rfl,
      (Codec.word64_solid f.indent).toReadsBack, rfl, hcomment.toReadsBack, trivial⟩

/-- Fodder is read back. -/
theorem Fodder.codec_solid (f : Fodder) : Fodder.codec.Solid Fodder.codec f :=
  Codec.list_solid fun element _ => element.codec_solid.toReadsBack

/-- String literals are read back. -/
theorem StringLiteral.codec_solid (s : StringLiteral) :
    StringLiteral.record.codec.Solid StringLiteral.record.codec s :=
  Record.solid (by decide) rfl
    ⟨rfl, (Codec.string_solid s.value).toReadsBack, rfl, s.kind.codec_solid.toReadsBack, rfl,
      (Codec.string_solid s.blockIndent).toReadsBack, rfl,
      (Codec.string_solid s.termIndent).toReadsBack, trivial⟩

/-! ## Fields -/

/-- A relation between two codecs of one type, given the expressions that its data hold. -/
abbrev CodecRelation (α : Type) := ⦃β : Type⦄ → Codec β → Codec β → (β → List α) → Prop

/-- Two fields have the same name, treat absence alike and have related codecs. -/
inductive Field.Related (R : CodecRelation α) :
    {β : Type} → Field β → Field β → (β → List α) → Prop
  | required {β : Type} {name : String} {c c' : Codec β} {exprs : β → List α} :
      R c c' exprs → Related R ⟨name, c, .refused⟩ ⟨name, c', .refused⟩ exprs
  | withDefault {β : Type} {name : String} {c c' : Codec β} {value : β} {exprs : β → List α} :
      R c c' exprs → exprs value = [] →
      Related R ⟨name, c, .allowed value⟩ ⟨name, c', .allowed value⟩ exprs
  | optional {β : Type} {name : String} {c c' : Codec β} {exprs : β → List α} :
      R c c' exprs →
      Related R ⟨name, c.option, .optional none⟩ ⟨name, c'.option, .optional none⟩
        (fun o => o.toList.flatMap exprs)

/-- Two descriptions of the same fields have related codecs for each of them. -/
inductive Fields.Related (R : CodecRelation α) :
    {ts : List Type} → Fields ts → Fields ts → (Row ts → List α) → Prop
  | nil : Related R .nil .nil (fun _ => [])
  | cons {β : Type} {ts : List Type} {field field' : Field β} {rest rest' : Fields ts}
      {exprs : β → List α} {more : Row ts → List α} :
      field.Related R field' exprs → Related R rest rest' more →
      Related R (.cons field rest) (.cons field' rest') (fun row => exprs row.1 ++ more row.2)

/-- A family of relations that all constructions of the schema keep. The codecs at a level read
only from values that are nested at least so many levels deeper than the expressions in them. -/
structure SchemaRelation (α : Type) where
  Rel : Nat → CodecRelation α
  weaken {level : Nat} {β : Type} {c c' : Codec β} {exprs : β → List α} :
    Rel (level + 1) c c' exprs → Rel level c c' exprs
  constant {level : Nat} {β : Type} {c : Codec β} :
    (∀ b, c.Solid c b) → Rel level c c (fun _ => [])
  list {level : Nat} {β : Type} {c c' : Codec β} {exprs : β → List α} :
    Rel level c c' exprs → Rel level c.list c'.list (fun bs => bs.flatMap exprs)
  record {level : Nat} {ρ : Type} {name : String} {types : List Type}
    {fields fields' : Fields types} {toRow : ρ → Row types} {ofRow : Row types → ρ}
    {exprs : ρ → List α} {rowExprs : Row types → List α} :
    fields.Related (Rel level) fields' rowExprs → fields'.names.Nodup →
    (∀ x, ofRow (toRow x) = x) → (∀ row, toRow (ofRow row) = row) →
    (∀ x a, a ∈ exprs x ↔ a ∈ rowExprs (toRow x)) →
    Rel (level + 1) (Record.mk name types fields toRow ofRow).codec
      (Record.mk name types fields' toRow ofRow).codec exprs

namespace SchemaRelation

variable (L : SchemaRelation α) {e e' : Codec α}

section Fields

variable {level : Nat} {β : Type} {ts : List Type} {name : String} {c c' : Codec β}
  {exprs : β → List α} {rest rest' : Fields ts} {more : Row ts → List α}

/-- A field that must be there. -/
theorem required (h : L.Rel level c c' exprs) (hrest : rest.Related (L.Rel level) rest' more) :
    (Fields.required name c rest).Related (L.Rel level) (.required name c' rest')
      (fun row => exprs row.1 ++ more row.2) :=
  .cons (.required h) hrest

/-- A field that may be left out, and whose default holds no expression. -/
theorem withDefault {value : β} (h : L.Rel level c c' exprs) (hvalue : exprs value = [])
    (hrest : rest.Related (L.Rel level) rest' more) :
    (Fields.withDefault name c value rest).Related (L.Rel level) (.withDefault name c' value rest')
      (fun row => exprs row.1 ++ more row.2) :=
  .cons (.withDefault h hvalue) hrest

/-- A field whose value may be absent. -/
theorem optional (h : L.Rel level c c' exprs) (hrest : rest.Related (L.Rel level) rest' more) :
    (Fields.optional name c rest).Related (L.Rel level) (.optional name c' rest')
      (fun row => row.1.toList.flatMap exprs ++ more row.2) :=
  .cons (.optional h) hrest

/-- A field for fodder. -/
theorem fodder (hrest : rest.Related (L.Rel level) rest' more) :
    (Fields.fodder name rest).Related (L.Rel level) (.fodder name rest')
      (fun row => [] ++ more row.2) :=
  L.withDefault (L.constant Fodder.codec_solid) rfl hrest

/-- A field for a location. -/
theorem location (hrest : rest.Related (L.Rel level) rest' more) :
    (Fields.location name rest).Related (L.Rel level) (.location name rest')
      (fun row => [] ++ more row.2) :=
  L.withDefault (L.constant Location.codec_solid) rfl hrest

/-- A field for a switch. -/
theorem switch (hrest : rest.Related (L.Rel level) rest' more) :
    (Fields.switch name rest).Related (L.Rel level) (.switch name rest')
      (fun row => [] ++ more row.2) :=
  L.withDefault (L.constant Codec.boolean_solid) rfl hrest

/-- A field for a list. -/
theorem items (h : L.Rel level c c' exprs) (hrest : rest.Related (L.Rel level) rest' more) :
    (Fields.items name c rest).Related (L.Rel level) (.items name c' rest')
      (fun row => row.1.flatMap exprs ++ more row.2) :=
  L.withDefault (L.list h) rfl hrest

/-- A field for a string that must be there. -/
theorem string (hrest : rest.Related (L.Rel level) rest' more) :
    (Fields.required name .string rest).Related (L.Rel level) (.required name .string rest')
      (fun row => [] ++ more row.2) :=
  L.required (L.constant Codec.string_solid) hrest

end Fields

end SchemaRelation

namespace Fields

variable {β : Type} {ts : List Type} (name : String) (c : Codec β) (value : β) (rest : Fields ts)

/-- The names of fields after one that must be there. -/
@[simp] theorem names_required : (Fields.required name c rest).names = name :: rest.names := rfl

/-- The names of fields after one that may be left out. -/
@[simp] theorem names_withDefault :
    (Fields.withDefault name c value rest).names = name :: rest.names := rfl

/-- The names of fields after one whose value may be absent. -/
@[simp] theorem names_optional : (Fields.optional name c rest).names = name :: rest.names := rfl

/-- The names of fields after one for fodder. -/
@[simp] theorem names_fodder : (Fields.fodder name rest).names = name :: rest.names := rfl

/-- The names of fields after one for a location. -/
@[simp] theorem names_location : (Fields.location name rest).names = name :: rest.names := rfl

/-- The names of fields after one for a switch. -/
@[simp] theorem names_switch : (Fields.switch name rest).names = name :: rest.names := rfl

/-- The names of fields after one for a list. -/
@[simp] theorem names_items : (Fields.items name c rest).names = name :: rest.names := rfl

/-- No names are left after the last field. -/
@[simp] theorem names_nil : Fields.nil.names = [] := rfl

end Fields

namespace SchemaRelation

variable (L : SchemaRelation α) {e e' : Codec α}

/-! ## Parts of expressions -/

/-- The expression of a list element. -/
theorem element (h : L.Rel 0 e e' (fun a => [a])) :
    L.Rel 1 (Element.record e).codec (Element.record e').codec (fun x => [x.expr]) :=
  L.record (L.required h <| L.fodder .nil) (by simp) (fun _ => rfl) (fun _ => rfl) (by simp)

/-- The value of an argument. -/
theorem namedArgument (h : L.Rel 0 e e' (fun a => [a])) :
    L.Rel 1 (NamedArgument.record e).codec (NamedArgument.record e').codec (fun x => [x.value]) :=
  L.record (L.fodder <| L.string <| L.fodder <| L.required h <| L.fodder .nil) (by simp)
    (fun _ => rfl) (fun _ => rfl) (by simp)

/-- The expressions of arguments. -/
theorem arguments (h : L.Rel 0 e e' (fun a => [a])) :
    L.Rel 1 (Arguments.record e).codec (Arguments.record e').codec Arguments.exprs :=
  L.record (L.items (L.weaken (L.element h)) <| L.items (L.weaken (L.namedArgument h)) .nil)
    (by simp) (fun _ => rfl) (fun _ => rfl) (by simp [Arguments.exprs, eq_comm])

/-- The default value of a parameter. -/
theorem parameter (h : L.Rel 0 e e' (fun a => [a])) :
    L.Rel 1 (Parameter.record e).codec (Parameter.record e').codec (fun x => x.fallback.toList) :=
  L.record
    (L.fodder <| L.string <| L.fodder <| L.optional h <| L.fodder <| L.location .nil) (by simp)
    (fun _ => rfl) (fun _ => rfl) (by simp)

/-- The default values of a parameter list. -/
theorem parameters (h : L.Rel 0 e e' (fun a => [a])) :
    L.Rel 1 (Parameters.record e).codec (Parameters.record e').codec Parameters.fallbacks :=
  L.record (L.fodder <| L.items (L.weaken (L.parameter h)) <| L.switch <| L.fodder .nil) (by simp)
    (fun _ => rfl) (fun _ => rfl) (by simp [Parameters.fallbacks])

/-- The expressions of a binding. -/
theorem binding (h : L.Rel 0 e e' (fun a => [a])) :
    L.Rel 1 (Binding.record e).codec (Binding.record e').codec Binding.exprs :=
  L.record
    (L.fodder <| L.string <| L.fodder <| L.required h <| L.optional (L.weaken (L.parameters h)) <|
      L.fodder <| L.location .nil)
    (by simp) (fun _ => rfl) (fun _ => rfl)
    (by simp [Binding.exprs, Parameters.fallbacks?, or_comm])

/-- The expression of a condition. -/
theorem condition (h : L.Rel 0 e e' (fun a => [a])) :
    L.Rel 1 (Condition.record e).codec (Condition.record e').codec (fun x => [x.expr]) :=
  L.record (L.fodder <| L.required h .nil) (by simp) (fun _ => rfl) (fun _ => rfl) (by simp)

/-- The expressions of a clause and of the clauses around it. -/
theorem clause {outer outer' : Codec (Clauses α)} (h : L.Rel 0 e e' (fun a => [a]))
    (houter : L.Rel 0 outer outer' Clauses.exprs) :
    L.Rel 1 (Clauses.record e outer).codec (Clauses.record e' outer').codec Clauses.exprs :=
  L.record
    (L.fodder <| L.fodder <| L.string <| L.fodder <| L.required h <|
      L.items (L.weaken (L.condition h)) <| L.optional houter .nil)
    (by simp) (fun cs => by cases cs <;> rfl)
    (fun (_, _, _, _, _, _, outer?, _) => by cases outer? <;> rfl)
    (fun cs => by
      cases cs <;>
        simp [Clauses.exprs, Clauses.innermost, Clauses.outer?, Clause.exprs, eq_comm, or_comm,
          or_left_comm])

/-- All expressions that a member holds. -/
theorem member (h : L.Rel 0 e e' (fun a => [a])) :
    L.Rel 1 (Member.record e).codec (Member.record e').codec Member.parts :=
  L.record
    (L.required (L.constant MemberKind.codec_solid) <|
      L.required (L.constant Visibility.codec_solid) <| L.switch <|
      L.optional (L.weaken (L.parameters h)) <| L.fodder <| L.optional h <|
      L.optional (L.constant Codec.string_solid) <| L.fodder <| L.fodder <| L.optional h <|
      L.optional h <| L.fodder <| L.location .nil)
    (by simp) (fun _ => rfl) (fun _ => rfl)
    (by simp [Member.parts, Parameters.fallbacks?, or_left_comm])

/-- The name and the body of a field of a lowered object. -/
theorem loweredField (h : L.Rel 0 e e' (fun a => [a])) :
    L.Rel 1 (LoweredField.record e).codec (LoweredField.record e').codec
      (fun x => [x.name, x.body]) :=
  L.record
    (L.required (L.constant Visibility.codec_solid) <| L.required h <| L.required h <| L.switch <|
      L.location .nil)
    (by simp) (fun _ => rfl) (fun _ => rfl) (by simp)

/-! ## Payloads of forms -/

/-- The target and the arguments of a call. -/
theorem apply (h : L.Rel 0 e e' (fun a => [a])) :
    L.Rel 1 (Apply.record e).codec (Apply.record e').codec
      (fun x => x.target :: x.arguments.exprs) :=
  L.record
    (L.required h <| L.fodder <| L.withDefault (L.weaken (L.arguments h)) rfl <| L.switch <|
      L.fodder <| L.fodder <| L.switch .nil)
    (by simp) (fun _ => rfl) (fun _ => rfl) (by simp)

/-- The two operands of an extended object. -/
theorem applyBrace (h : L.Rel 0 e e' (fun a => [a])) :
    L.Rel 1 (Form.applyBraceRecord e).codec (Form.applyBraceRecord e').codec
      (fun x => [x.1, x.2]) :=
  L.record (L.required h <| L.required h .nil) (by simp) (fun _ => rfl) (fun _ => rfl) (by simp)

/-- The elements of an array. -/
theorem arrayLiteral (h : L.Rel 0 e e' (fun a => [a])) :
    L.Rel 1 (ArrayLiteral.record e).codec (ArrayLiteral.record e').codec
      (fun x => x.elements.map (·.expr)) :=
  L.record (L.items (L.weaken (L.element h)) <| L.switch <| L.fodder .nil) (by simp)
    (fun _ => rfl) (fun _ => rfl) (by simp [eq_comm])

/-- The body and the clauses of an array comprehension. -/
theorem arrayComp (h : L.Rel 0 e e' (fun a => [a]))
    (hclauses : L.Rel 0 (Clauses.codec e) (Clauses.codec e') Clauses.exprs) :
    L.Rel 1 (ArrayComp.record e).codec (ArrayComp.record e').codec
      (fun x => x.body :: x.clauses.exprs) :=
  L.record
    (L.required h <| L.fodder <| L.switch <| L.required hclauses <| L.fodder .nil)
    (by simp) (fun _ => rfl) (fun _ => rfl) (by simp)

/-- The parts of an assertion. -/
theorem assert (h : L.Rel 0 e e' (fun a => [a])) :
    L.Rel 1 (Assert.record e).codec (Assert.record e').codec
      (fun x => x.condition :: x.message.toList ++ [x.rest]) :=
  L.record (L.required h <| L.fodder <| L.optional h <| L.fodder <| L.required h .nil) (by simp)
    (fun _ => rfl) (fun _ => rfl) (by simp)

/-- The operands of a binary operation. -/
theorem binary (h : L.Rel 0 e e' (fun a => [a])) :
    L.Rel 1 (Binary.record e).codec (Binary.record e').codec (fun x => [x.left, x.right]) :=
  L.record
    (L.required h <| L.fodder <| L.required (L.constant BinaryOp.codec_solid) <|
      L.required h .nil)
    (by simp) (fun _ => rfl) (fun _ => rfl) (by simp)

/-- The condition and the branches of a conditional. -/
theorem conditional (h : L.Rel 0 e e' (fun a => [a])) :
    L.Rel 1 (Conditional.record e).codec (Conditional.record e').codec
      (fun x => x.condition :: x.yes :: x.no.toList) :=
  L.record (L.required h <| L.fodder <| L.required h <| L.fodder <| L.optional h .nil) (by simp)
    (fun _ => rfl) (fun _ => rfl) (by simp)

/-- The expression of a form that holds one. -/
theorem single {name field : String} (h : L.Rel 0 e e' (fun a => [a])) :
    L.Rel 1 (Form.singleRecord e name field).codec (Form.singleRecord e' name field).codec
      (fun x => [x]) :=
  L.record (L.required h .nil) (by simp) (fun _ => rfl) (fun _ => rfl) (by simp)

/-- A form that holds one datum without expressions. -/
theorem singleConstant {β : Type} {c : Codec β} {name field : String} (h : ∀ b, c.Solid c b) :
    L.Rel 1 (Form.singleRecord c name field).codec (Form.singleRecord c name field).codec
      (fun _ => []) :=
  L.record (L.required (L.constant h) .nil) (by simp) (fun _ => rfl) (fun _ => rfl) (by simp)

/-- The default values and the body of a function. -/
theorem function (h : L.Rel 0 e e' (fun a => [a])) :
    L.Rel 1 (Form.functionRecord e).codec (Form.functionRecord e').codec
      (fun x => x.1.fallbacks ++ [x.2]) :=
  L.record (L.withDefault (L.weaken (L.parameters h)) rfl <| L.required h .nil) (by simp)
    (fun _ => rfl) (fun _ => rfl) (by simp)

/-- The target and the index of an access. -/
theorem index (h : L.Rel 0 e e' (fun a => [a])) :
    L.Rel 1 (Index.record e).codec (Index.record e').codec
      (fun x => x.target :: x.index.toList) :=
  L.record
    (L.required h <| L.fodder <| L.optional h <| L.fodder <|
      L.optional (L.constant Codec.string_solid) .nil)
    (by simp) (fun _ => rfl) (fun _ => rfl) (by simp)

/-- The target and the bounds of a slice. -/
theorem slice (h : L.Rel 0 e e' (fun a => [a])) :
    L.Rel 1 (Slice.record e).codec (Slice.record e').codec
      (fun x => x.target :: x.start.toList ++ x.stop.toList ++ x.step.toList) :=
  L.record
    (L.required h <| L.fodder <| L.optional h <| L.fodder <| L.optional h <| L.fodder <|
      L.optional h <| L.fodder .nil)
    (by simp) (fun _ => rfl) (fun _ => rfl) (by simp)

/-- The index of a test for a field of `super`. -/
theorem inSuper (h : L.Rel 0 e e' (fun a => [a])) :
    L.Rel 1 (InSuper.record e).codec (InSuper.record e').codec (fun x => [x.index]) :=
  L.record (L.required h <| L.fodder <| L.fodder .nil) (by simp) (fun _ => rfl) (fun _ => rfl)
    (by simp)

/-- The bindings and the body of a local expression. -/
theorem locals (h : L.Rel 0 e e' (fun a => [a])) :
    L.Rel 1 (Form.localsRecord e).codec (Form.localsRecord e').codec
      (fun x => x.1.flatMap (·.exprs) ++ [x.2]) :=
  L.record (L.required (L.list (L.weaken (L.binding h))) <| L.required h .nil) (by simp)
    (fun _ => rfl) (fun _ => rfl) (by simp)

/-- All expressions that the members of an object hold. -/
theorem objectLiteral (h : L.Rel 0 e e' (fun a => [a])) :
    L.Rel 1 (ObjectLiteral.record e).codec (ObjectLiteral.record e').codec
      (fun x => x.members.flatMap (·.parts)) :=
  L.record (L.items (L.weaken (L.member h)) <| L.switch <| L.fodder .nil) (by simp)
    (fun _ => rfl) (fun _ => rfl) (by simp)

/-- The assertions, fields and local bindings of a lowered object. -/
theorem loweredObject (h : L.Rel 0 e e' (fun a => [a])) :
    L.Rel 1 (LoweredObject.record e).codec (LoweredObject.record e').codec
      (fun x => x.asserts ++ x.fields.flatMap (fun d => [d.name, d.body]) ++
        x.locals.flatMap (·.exprs)) :=
  L.record
    (L.items h <| L.items (L.weaken (L.loweredField h)) <| L.items (L.weaken (L.binding h)) .nil)
    (by simp) (fun _ => rfl) (fun _ => rfl) (by simp)

/-- The members and the clauses of an object comprehension. -/
theorem objectComp (h : L.Rel 0 e e' (fun a => [a]))
    (hclauses : L.Rel 0 (Clauses.codec e) (Clauses.codec e') Clauses.exprs) :
    L.Rel 1 (ObjectComp.record e).codec (ObjectComp.record e').codec
      (fun x => x.members.flatMap (·.parts) ++ x.clauses.exprs) :=
  L.record
    (L.items (L.weaken (L.member h)) <| L.switch <| L.required hclauses <|
      L.fodder .nil)
    (by simp) (fun _ => rfl) (fun _ => rfl) (by simp)

/-- The inside of parentheses. -/
theorem parens (h : L.Rel 0 e e' (fun a => [a])) :
    L.Rel 1 (Form.parensRecord e).codec (Form.parensRecord e').codec (fun x => [x.1]) :=
  L.record (L.required h <| L.fodder .nil) (by simp) (fun _ => rfl) (fun _ => rfl) (by simp)

/-- The index of an access to `super`. -/
theorem superIndex (h : L.Rel 0 e e' (fun a => [a])) :
    L.Rel 1 (SuperIndex.record e).codec (SuperIndex.record e').codec (fun x => x.index.toList) :=
  L.record
    (L.fodder <| L.optional h <| L.fodder <| L.optional (L.constant Codec.string_solid) .nil)
    (by simp) (fun _ => rfl) (fun _ => rfl) (by simp)

/-- The operand of a unary operation. -/
theorem unary (h : L.Rel 0 e e' (fun a => [a])) :
    L.Rel 1 (Form.unaryRecord e).codec (Form.unaryRecord e').codec (fun x => [x.2]) :=
  L.record (L.required (L.constant UnaryOp.codec_solid) <| L.required h .nil) (by simp)
    (fun _ => rfl) (fun _ => rfl) (by simp)

end SchemaRelation

/-! ## Forms and expressions -/

/-- Two variants have the same tag and no payload, or their payloads are related records of which
the same form is made. -/
inductive Variant.Related (R : CodecRelation α) : Variant (Form α) → Variant (Form α) → Prop
  | absent {tag : String} {form : Form α} (h : form.parts = []) :
      Related R ⟨tag, .absent form⟩ ⟨tag, .absent form⟩
  | record {ρ : Type} {r r' : Record ρ} {tag : String} {make : ρ → Form α}
      (h : R r.codec r'.codec fun x => (make x).parts) :
      Related R (r.variant tag make) (r'.variant tag make)

namespace SchemaRelation

variable (L : SchemaRelation α) {e e' : Codec α}

/-- All forms, with the expressions that their payloads hold. -/
theorem variants (h : L.Rel 0 e e' (fun a => [a]))
    (hclauses : L.Rel 0 (Clauses.codec e) (Clauses.codec e') Clauses.exprs) :
    List.Forall₂ (Variant.Related (L.Rel 1)) (Form.variants e) (Form.variants e') :=
  .cons (.record (L.apply h)) <|
  .cons (.record (L.applyBrace h)) <|
  .cons (.record (L.arrayLiteral h)) <|
  .cons (.record (L.arrayComp h hclauses)) <|
  .cons (.record (L.assert h)) <|
  .cons (.record (L.binary h)) <|
  .cons (.record (L.conditional h)) <|
  .cons (.absent rfl) <|
  .cons (.record (L.single h)) <|
  .cons (.record (L.function h)) <|
  .cons (.record (L.single h)) <|
  .cons (.record (L.single h)) <|
  .cons (.record (L.index h)) <|
  .cons (.record (L.slice h)) <|
  .cons (.record (L.inSuper h)) <|
  .cons (.record (L.locals h)) <|
  .cons (.record (L.singleConstant Codec.boolean_solid)) <|
  .cons (.absent rfl) <|
  .cons (.record (L.singleConstant Codec.string_solid)) <|
  .cons (.record (L.constant StringLiteral.codec_solid)) <|
  .cons (.record (L.objectLiteral h)) <|
  .cons (.record (L.loweredObject h)) <|
  .cons (.record (L.objectComp h hclauses)) <|
  .cons (.record (L.parens h)) <|
  .cons (.absent rfl) <|
  .cons (.record (L.superIndex h)) <|
  .cons (.record (L.unary h)) <|
  .cons (.record (L.singleConstant Codec.string_solid)) .nil

/-- The subexpressions of an expression, if those of its form are known. -/
theorem expr {sub sub' : Codec Expr} (L : SchemaRelation Expr) {level : Nat}
    (h : L.Rel level (Form.codec sub) (Form.codec sub') Form.parts) :
    L.Rel (level + 1) (Expr.record sub).codec (Expr.record sub').codec (·.form.parts) :=
  L.record (L.location <| L.fodder <| L.required h .nil) (by simp) (fun x => by cases x; rfl)
    (fun _ => rfl) (by simp)

end SchemaRelation

end JsonnetTree
