import JsonnetTree.Expr.RecursionLaws
import JsonnetTree.Proofs.Codec.Provenance
import JsonnetTree.Proofs.Document.SchemaRelation

/-!
# The height of what is read

An expression of a document takes at least three levels of nesting for each level of its own: an
object for the expression, one for its form and one for the payload of the form. So the bounds
under which documents are read are never met (`Expr.three_mul_height_le`).
-/

namespace JsonnetTree

open Json

variable {α : Type}

/-! ## Expressions lie deep inside the values they are read from -/

/-- What the codec reads from a value holds only expressions whose size is smaller than the
nesting of the value, by at least `level`. -/
structure Codec.ReadsSmall (size : α → Nat) (level : Nat) ⦃β : Type⦄ (c c' : Codec β)
    (exprs : β → List α) : Prop where
  size_le : ∀ v x, c.read v = .ok x → ∀ a ∈ exprs x, size a + level ≤ v.nesting

section

variable {size : α → Nat} {level nesting : Nat}

/-- The value of a field holds only expressions that are small enough. -/
theorem Field.Related.small {β : Type} {field field' : Field β} {exprs : β → List α}
    (h : field.Related (Codec.ReadsSmall size level) field' exprs) {b : β}
    (hb : field.From nesting b) : ∀ a ∈ exprs b, size a + level < nesting := by
  cases h with
  | required hc =>
    rcases hb with ⟨w, hw, hread⟩ | hb | hb
    · exact fun a ha => Nat.lt_of_le_of_lt (hc.size_le w b hread a ha) hw
    · cases hb
    · cases hb
  | withDefault hc hvalue =>
    rcases hb with ⟨w, hw, hread⟩ | hb | hb
    · exact fun a ha => Nat.lt_of_le_of_lt (hc.size_le w b hread a ha) hw
    · cases hb
    · cases hb
      rw [hvalue]
      nofun
  | optional hc =>
    rcases hb with ⟨w, hw, hread⟩ | hb | hb
    · cases b with
      | none => nofun
      | some d =>
        intro a ha
        exact Nat.lt_of_le_of_lt
          (hc.size_le w d (Codec.option_read_eq_ok hread) a (by simpa using ha)) hw
    · cases hb
      nofun
    · cases hb

/-- A row holds only expressions that are small enough. -/
theorem Fields.Related.small {ts : List Type} {fields fields' : Fields ts}
    {exprs : Row ts → List α} (h : fields.Related (Codec.ReadsSmall size level) fields' exprs)
    {row : Row ts} (hrow : fields.From nesting row) :
    ∀ a ∈ exprs row, size a + level < nesting := by
  induction h with
  | nil => nofun
  | cons hfield hrest ih =>
    intro a ha
    rcases List.mem_append.mp ha with ha | ha
    · exact hfield.small hrow.1 a ha
    · exact ih hrow.2 a ha

end

/-- Every list and every record takes a level of nesting. -/
def SchemaRelation.readsSmall (size : α → Nat) : SchemaRelation α where
  Rel := Codec.ReadsSmall size
  weaken h := ⟨fun v x hread a ha => Nat.le_of_succ_le (h.size_le v x hread a ha)⟩
  constant _ := ⟨nofun⟩
  list h := by
    refine ⟨fun v bs hread a ha => ?_⟩
    obtain ⟨b, hb, ha⟩ := List.mem_flatMap.mp ha
    obtain ⟨w, hw, hb⟩ := Codec.list_read_eq_ok hread b hb
    exact Nat.le_trans (h.size_le w b hb a ha) (Nat.le_of_lt hw)
  record hfields _ _ hrow hexprs := by
    refine ⟨fun v x hread a ha => ?_⟩
    obtain ⟨row, rfl, hfrom⟩ := Record.read_eq_ok hread
    rw [hexprs, hrow] at ha
    exact hfields.small hfrom a ha

/-- The expressions of clauses are small enough, however many clauses may be read. -/
theorem Clauses.readsSmall_codec {size : α → Nat} {e : Codec α}
    (h : Codec.ReadsSmall size 0 e e (fun a => [a])) :
    Codec.ReadsSmall size 0 (Clauses.codec e) (Clauses.codec e) Clauses.exprs := by
  let L := SchemaRelation.readsSmall size
  have hbounded (length : Nat) : Codec.ReadsSmall size 0 (Clauses.codecUpTo e length)
      (Clauses.codecUpTo e length) Clauses.exprs := by
    induction length with
    | zero => exact ⟨fun v x hread => by cases hread⟩
    | succ length ih => exact L.weaken (L.clause h ih)
  exact ⟨fun v => (hbounded (v.nesting + 1)).size_le v⟩

/-- What a variant makes of a payload holds only expressions that are smaller than the nesting of
the payload. -/
def Variant.MakesSmall (size : α → Nat) (variant : Variant (Form α)) : Prop :=
  match variant.payload with
  | .absent form => form.parts = []
  | .present read => ∀ w form, read w = .ok form → ∀ a ∈ form.parts, size a < w.nesting

/-- A variant whose payload holds only small expressions makes a form of it that does too. -/
theorem Variant.Related.makesSmall {size : α → Nat} {variant variant' : Variant (Form α)}
    (h : variant.Related (Codec.ReadsSmall size 1) variant') : variant.MakesSmall size := by
  cases h with
  | absent hparts => exact hparts
  | record h =>
    intro w form hread
    obtain ⟨x, hx, rfl⟩ := Outcome.map_eq_ok hread
    exact h.size_le w x hx

/-- All forms are made of payloads that are nested deeper than the expressions in them. -/
theorem Form.variants_makeSmall {size : α → Nat} {e : Codec α}
    (h : Codec.ReadsSmall size 0 e e (fun a => [a])) :
    ∀ variant ∈ Form.variants e, variant.MakesSmall size := by
  intro variant hvariant
  have hvariants := (SchemaRelation.readsSmall size).variants h (Clauses.readsSmall_codec h)
  obtain ⟨variant', -, hrelated⟩ := Outcome.exists_of_mem_left hvariants variant hvariant
  exact hrelated.makesSmall

/-- A form is read from a value around its payload, which takes one level more. -/
theorem Form.readsSmall_codec {size : α → Nat} {e : Codec α}
    (h : Codec.ReadsSmall size 0 e e (fun a => [a])) :
    Codec.ReadsSmall size 2 (Form.codec e) (Form.codec e) Form.parts := by
  refine ⟨fun v form hread a ha => ?_⟩
  obtain ⟨variant, hmem, hpayload⟩ := Variant.read_eq_ok hread
  have hsmall := Form.variants_makeSmall h variant hmem
  rw [Variant.MakesSmall] at hsmall
  rcases hpayload with hpayload | ⟨read, w, hpayload, hw, hread⟩
  · simp only [hpayload] at hsmall
    simp [hsmall] at ha
  · simp only [hpayload] at hsmall
    have := hsmall w form hread a ha
    omega

/-! ## The height of an expression -/

/-- Nothing but an array or an object is read as a record. -/
theorem Record.one_le_nesting {ρ : Type} {r : Record ρ} {v : Value} {x : ρ}
    (h : r.codec.read v = .ok x) : 1 ≤ v.nesting := by
  cases v with
  | array items ending => exact Nat.le_add_left 1 _
  | object members ending => exact Nat.le_add_left 1 _
  | _ => exact absurd h (Value.refuse_ne_ok _ _ _)

/-- An expression is at most so high as its subexpressions allow. -/
theorem Expr.height_le {e : Expr} {n : Nat} (h : ∀ part ∈ e.form.parts, part.height ≤ n) :
    e.height ≤ n + 1 := by
  rw [e.height_eq]
  refine Nat.succ_le_succ ?_
  generalize e.form.parts = parts at h
  induction parts with
  | nil => exact Nat.zero_le n
  | cons part rest ih =>
    exact Nat.max_le.mpr ⟨h part (by simp), ih fun other hother => h other (by simp [hother])⟩

/-- An expression that is read from a value has at most a third of the levels that the value is
nested, rounded up. -/
theorem Expr.three_mul_height_le {bound : Nat} {v : Value} {e : Expr}
    (h : (Expr.codecUpTo bound).read v = .ok e) : 3 * e.height ≤ v.nesting + 2 := by
  induction bound generalizing v e with
  | zero => cases h
  | succ bound ih =>
    let L := SchemaRelation.readsSmall fun a : Expr => 3 * a.height - 2
    have hsub : L.Rel 0 (Expr.codecUpTo bound) (Expr.codecUpTo bound) (fun a => [a]) := by
      refine ⟨fun w a ha b hb => ?_⟩
      obtain rfl := List.mem_singleton.mp hb
      have := ih ha
      change 3 * b.height - 2 + 0 ≤ w.nesting
      omega
    have hparts : ∀ part ∈ e.form.parts, 3 * part.height - 2 + 3 ≤ v.nesting :=
      (SchemaRelation.expr L (Form.readsSmall_codec hsub)).size_le v e h
    have hpos : 1 ≤ v.nesting := Record.one_le_nesting h
    have hheight : e.height ≤ (v.nesting - 1) / 3 + 1 := by
      refine Expr.height_le fun part hpart => ?_
      have := hparts part hpart
      omega
    omega

end JsonnetTree
