import JsonnetTree.Proofs.Codec.Provenance
import JsonnetTree.Proofs.Document.SchemaRelation

/-!
# Bounds do not matter

Expressions are read with a bound on their height, and chains of clauses with one on their length.
Both are taken from the nesting of the value. Codecs with different bounds agree on all values that
are nested less deeply than either, so that the unbounded codecs satisfy the equations that one
would define them by (`Expr.read_codec`, `Clauses.read_codec`).
-/

namespace JsonnetTree

open Json

variable {α β ρ σ : Type} {limit level : Nat}

/-- Two codecs read alike what is nested less than `limit` deep. -/
def Codec.AgreeBelow (limit : Nat) (c c' : Codec β) : Prop :=
  ∀ v : Value, v.nesting < limit → c.read v = c'.read v

namespace Codec

variable {c c' : Codec β}

/-- Codecs that agree below a limit agree below a smaller one. -/
theorem AgreeBelow.mono {limit' : Nat} (h : c.AgreeBelow limit c') (hle : limit' ≤ limit) :
    c.AgreeBelow limit' c' :=
  fun v hv => h v (Nat.lt_of_lt_of_le hv hle)

/-- Data that may be absent are read alike if they are so when they are there. -/
theorem AgreeBelow.option (h : c.AgreeBelow limit c') : c.option.AgreeBelow limit c'.option := by
  intro v hv
  cases v with
  | null => rfl
  | _ => exact congrArg (some <$> ·) (h _ hv)

/-- Lists are read alike if their items are. -/
theorem AgreeBelow.list (h : c.AgreeBelow limit c') : c.list.AgreeBelow limit c'.list := by
  intro v hv
  cases v with
  | array items ending =>
    have hitems : ∀ w ∈ items, w.nesting < limit := fun w hw =>
      Nat.lt_trans (Value.nesting_lt_of_mem_items hw ending) hv
    have hread : readItems c.read items = readItems c'.read items := by
      clear hv
      induction items with
      | nil => rfl
      | cons w items ih =>
        obtain ⟨hw, hrest⟩ := List.forall_mem_cons.mp hitems
        simp only [readItems, h w hw, ih hrest]
    simp only [Codec.list, hread]
  | _ => rfl

end Codec

/-! ## Records -/

/-- Agreement below a limit, as a relation that follows the schema. -/
abbrev Codec.Agreement (limit : Nat) : CodecRelation α :=
  fun _ c c' _ => c.AgreeBelow limit c'

/-- Fields whose codecs agree have the same name, treat absence alike and read alike. -/
theorem Field.Related.agree {field field' : Field β} {exprs : β → List α}
    (h : field.Related (Codec.Agreement limit) field' exprs) :
    field.name = field'.name ∧ field.absence = field'.absence ∧
      field.codec.AgreeBelow limit field'.codec := by
  cases h with
  | required h => exact ⟨rfl, rfl, h⟩
  | withDefault h => exact ⟨rfl, rfl, h⟩
  | optional h => exact ⟨rfl, rfl, h.option⟩

namespace Fields.Related

variable {ts : List Type} {fields fields' : Fields ts} {exprs : Row ts → List α}

/-- Related descriptions have as many fields. -/
theorem size_eq {R : CodecRelation α} (h : fields.Related R fields' exprs) :
    fields.size = fields'.size := by
  induction h with
  | nil => rfl
  | cons _ _ ih => exact congrArg (· + 1) ih

/-- No field has been read in either description. -/
theorem noneRead_eq {R : CodecRelation α} (h : fields.Related R fields' exprs) :
    fields.noneRead = fields'.noneRead := by
  induction h with
  | nil => rfl
  | cons _ _ ih => exact congrArg (Prod.mk none) ih

/-- A member is read alike. -/
theorem put_eq (h : fields.Related (Codec.Agreement limit) fields' exprs) {v : Value}
    (hv : v.nesting < limit) (key : String) (slots : Slots ts) :
    fields.put slots key v = fields'.put slots key v := by
  induction h with
  | nil => rfl
  | cons hfield _ ih =>
    obtain ⟨hname, -, hread⟩ := hfield.agree
    obtain ⟨slot, slots⟩ := slots
    simp only [put, hname, hread v hv, ih slots]

/-- Members are read alike. -/
theorem readMembers_eq (h : fields.Related (Codec.Agreement limit) fields' exprs)
    {members : List (Text × Value)} (hmembers : ∀ m ∈ members, m.2.nesting < limit)
    (slots : Slots ts) : fields.readMembers members slots = fields'.readMembers members slots := by
  induction members generalizing slots with
  | nil => rfl
  | cons m members ih =>
    obtain ⟨hm, hrest⟩ := List.forall_mem_cons.mp hmembers
    simp only [readMembers, h.put_eq hm, ih hrest]

/-- The same is taken for fields that are left out. -/
theorem fill_eq (h : fields.Related (Codec.Agreement limit) fields' exprs) (slots : Slots ts) :
    fields.fill slots = fields'.fill slots := by
  induction h with
  | nil => rfl
  | cons hfield _ ih =>
    obtain ⟨hname, habsence, -⟩ := hfield.agree
    obtain ⟨slot, slots⟩ := slots
    simp only [fill, hname, habsence, ih slots]

/-- The items of an array are read alike. -/
theorem readItems_eq (h : fields.Related (Codec.Agreement limit) fields' exprs)
    (short : Nat → Complaint) (ending : Ending) {items : List Value}
    (hitems : ∀ v ∈ items, v.nesting < limit) (index : Nat) :
    fields.readItems short ending index items = fields'.readItems short ending index items := by
  induction h generalizing index items with
  | nil => rfl
  | cons hfield _ ih =>
    obtain ⟨-, habsence, hread⟩ := hfield.agree
    cases items with
    | nil => simp only [readItems, habsence, ih hitems]
    | cons v items =>
      obtain ⟨hv, hrest⟩ := List.forall_mem_cons.mp hitems
      simp only [readItems, hread v hv, ih hrest]

end Fields.Related

/-- Records are read alike if their fields are, for values that are nested one level deeper. -/
theorem Record.agreeBelow {name : String} {types : List Type} {fields fields' : Fields types}
    {toRow : ρ → Row types} {ofRow : Row types → ρ} {exprs : Row types → List α}
    (h : fields.Related (Codec.Agreement limit) fields' exprs) :
    (Record.mk name types fields toRow ofRow).codec.AgreeBelow (limit + 1)
      (Record.mk name types fields' toRow ofRow).codec := by
  intro v hv
  cases v with
  | object members ending =>
    have hmembers : ∀ m ∈ members, m.2.nesting < limit := fun m hm =>
      Nat.lt_of_lt_of_le (Value.nesting_lt_of_mem_members hm ending) (Nat.le_of_lt_succ hv)
    simp only [codec, h.noneRead_eq, h.readMembers_eq hmembers, h.fill_eq]
  | array items ending =>
    have hitems : ∀ w ∈ items, w.nesting < limit := fun w hw =>
      Nat.lt_of_lt_of_le (Value.nesting_lt_of_mem_items hw ending) (Nat.le_of_lt_succ hv)
    simp only [codec, h.size_eq, h.readItems_eq _ _ hitems]
  | _ => rfl

/-- Agreement is kept by all constructions of the schema. -/
def SchemaRelation.agreement (limit : Nat) : SchemaRelation α where
  Rel level := Codec.Agreement (limit + level)
  weaken h := h.mono (Nat.le_succ _)
  constant _ := fun _ _ => rfl
  list h := h.list
  record h _ _ _ _ := Record.agreeBelow h

/-! ## Clauses and forms -/

section

variable {e e' : Codec α}

/-- Chains of clauses are read alike, whatever number of clauses may be read, if values are nested
less than that. -/
theorem Clauses.codecUpTo_agreeBelow (h : e.AgreeBelow limit e') {m n : Nat} (hm : limit ≤ m)
    (hn : limit ≤ n) : (Clauses.codecUpTo e m).AgreeBelow limit (Clauses.codecUpTo e' n) := by
  induction limit generalizing m n with
  | zero => exact fun v hv => absurd hv (Nat.not_lt_zero _)
  | succ limit ih =>
    obtain ⟨m, rfl⟩ : ∃ k, m = k + 1 := ⟨m - 1, by omega⟩
    obtain ⟨n, rfl⟩ : ∃ k, n = k + 1 := ⟨n - 1, by omega⟩
    have he : e.AgreeBelow limit e' := h.mono (Nat.le_succ limit)
    exact (SchemaRelation.agreement limit).clause he
      (ih he (Nat.le_of_succ_le_succ hm) (Nat.le_of_succ_le_succ hn))

/-- Chains of clauses are read alike if the expressions in them are. -/
theorem Clauses.codec_agreeBelow (h : e.AgreeBelow limit e') :
    (Clauses.codec e).AgreeBelow limit (Clauses.codec e') :=
  fun v hv =>
    codecUpTo_agreeBelow (h.mono hv) (Nat.le_refl _) (Nat.le_refl _) v (Nat.lt_succ_self _)

/-- A chain of clauses is read as a clause with the chain around it. -/
theorem Clauses.read_codec (e : Codec α) (v : Value) :
    (Clauses.codec e).read v = (Clauses.record e (Clauses.codec e)).codec.read v := by
  have he (limit : Nat) : e.AgreeBelow limit e := fun _ _ => rfl
  have houter : (Clauses.codecUpTo e v.nesting).AgreeBelow v.nesting (Clauses.codec e) :=
    fun w hw => codecUpTo_agreeBelow (he _) hw (Nat.le_refl _) w (Nat.lt_succ_self _)
  exact (SchemaRelation.agreement v.nesting).clause (he _) houter v (Nat.lt_succ_self _)

end

/-- Two variants have the same tag, and their payloads are read alike. -/
inductive Variant.AgreeBelow (limit : Nat) : Variant σ → Variant σ → Prop
  | absent {tag : String} {value : σ} : AgreeBelow limit ⟨tag, .absent value⟩ ⟨tag, .absent value⟩
  | present {tag : String} {read read' : Value → Read σ}
      (h : ∀ v : Value, v.nesting < limit → read v = read' v) :
      AgreeBelow limit ⟨tag, .present read⟩ ⟨tag, .present read'⟩

namespace Variant

variable {variants variants' : List (Variant σ)}

/-- Variants that agree have the same tags. -/
theorem map_tag_eq (h : List.Forall₂ (AgreeBelow limit) variants variants') :
    variants.map (·.tag) = variants'.map (·.tag) := by
  induction h with
  | nil => rfl
  | cons hfirst _ ih =>
    refine congrArg₂ List.cons ?_ ih
    cases hfirst <;> rfl

/-- A tag selects variants that agree, or none. -/
theorem find?_agree (h : List.Forall₂ (AgreeBelow limit) variants variants') (name : String) :
    Option.Rel (AgreeBelow limit) (variants.find? (·.tag == name))
      (variants'.find? (·.tag == name)) := by
  induction h with
  | nil => exact .none
  | @cons variant variant' _ _ hfirst _ ih =>
    have htag : variant.tag = variant'.tag := by cases hfirst <;> rfl
    rw [List.find?_cons, List.find?_cons, htag]
    split
    · exact .some hfirst
    · exact ih

/-- A payload is read alike with the tag before it. -/
theorem readTagged_eq (h : List.Forall₂ (AgreeBelow limit) variants variants') (name : String)
    {payload : Value} (hpayload : payload.nesting < limit) :
    readTagged variants name payload = readTagged variants' name payload := by
  have hfind := find?_agree h name
  simp only [readTagged, select, map_tag_eq h]
  generalize variants.find? (·.tag == name) = found at hfind
  generalize variants'.find? (·.tag == name) = found' at hfind
  cases hfind with
  | none => rfl
  | some hvariant =>
    cases hvariant with
    | absent => rfl
    | present hread => exact hread payload hpayload

/-- A bare tag is read alike. -/
theorem readBare_eq (h : List.Forall₂ (AgreeBelow limit) variants variants') (name : String) :
    readBare variants name = readBare variants' name := by
  have hfind := find?_agree h name
  simp only [readBare, select, map_tag_eq h]
  generalize variants.find? (·.tag == name) = found at hfind
  generalize variants'.find? (·.tag == name) = found' at hfind
  cases hfind with
  | none => rfl
  | some hvariant => cases hvariant <;> rfl

/-- Variants are read alike from values that are nested one level deeper than their payloads. -/
theorem read_eq (h : List.Forall₂ (AgreeBelow limit) variants variants') {v : Value}
    (hv : v.nesting < limit + 1) : read variants v = read variants' v := by
  cases v with
  | string t => simp only [read, readBare_eq h]
  | object members ending =>
    cases members with
    | nil => cases ending <;> rfl
    | cons m members =>
      have hm : m.2.nesting < (Value.object (m :: members) ending).nesting :=
        Value.nesting_lt_of_mem_members (List.mem_cons_self ..) ending
      simp only [read, readTagged_eq h _ (Nat.lt_of_lt_of_le hm (Nat.le_of_lt_succ hv))]
  | _ => rfl

end Variant

/-- Variants agree if their payloads do. -/
theorem Variant.Related.agreeBelow {variant variant' : Variant (Form α)}
    (h : variant.Related (Codec.Agreement limit) variant') : variant.AgreeBelow limit variant' := by
  cases h with
  | absent => exact .absent
  | @record _ _ _ _ make h => exact .present fun v hv => congrArg (make <$> ·) (h v hv)

/-- Forms are read alike if the expressions in them are, from values that are nested two levels
deeper. -/
theorem Form.codec_agreeBelow {e e' : Codec α} (h : e.AgreeBelow limit e') :
    (Form.codec e).AgreeBelow (limit + 2) (Form.codec e') := by
  have hvariants := (SchemaRelation.agreement limit).variants h (Clauses.codec_agreeBelow h)
  exact fun v hv => Variant.read_eq (hvariants.imp fun _ _ hrelated => hrelated.agreeBelow) hv

/-! ## Expressions -/

/-- Expressions are read alike, whatever height is allowed, if values are nested less than that. -/
theorem Expr.codecUpTo_agreeBelow {m n : Nat} (hm : limit ≤ m) (hn : limit ≤ n) :
    (Expr.codecUpTo m).AgreeBelow limit (Expr.codecUpTo n) := by
  induction limit generalizing m n with
  | zero => exact fun v hv => absurd hv (Nat.not_lt_zero _)
  | succ limit ih =>
    obtain ⟨m, rfl⟩ : ∃ k, m = k + 1 := ⟨m - 1, by omega⟩
    obtain ⟨n, rfl⟩ : ∃ k, n = k + 1 := ⟨n - 1, by omega⟩
    have hform := Form.codec_agreeBelow (ih (Nat.le_of_succ_le_succ hm) (Nat.le_of_succ_le_succ hn))
    have hexpr := SchemaRelation.expr (SchemaRelation.agreement limit) hform
    exact Codec.AgreeBelow.mono hexpr (by omega)

/-- An expression is read as a form with expressions in it. -/
theorem Expr.read_codec (v : Value) :
    Expr.codec.read v = (Expr.record Expr.codec).codec.read v := by
  have hsub : (Expr.codecUpTo v.nesting).AgreeBelow v.nesting Expr.codec :=
    fun w hw => codecUpTo_agreeBelow hw (Nat.le_refl _) w (Nat.lt_succ_self _)
  exact SchemaRelation.expr (SchemaRelation.agreement v.nesting)
    (Form.codec_agreeBelow hsub) v (by omega)

end JsonnetTree
