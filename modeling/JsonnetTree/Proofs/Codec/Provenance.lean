import JsonnetTree.Codec.Variant
import JsonnetTree.Proofs.Codec.Members

/-!
# Where data are read from

Whatever a codec reads from a value it reads from the values inside it, which are nested less
deeply. A record has for each field what was read from such a value, or the default of the field.
-/

namespace JsonnetTree

open Json

variable {α β ρ σ : Type}

namespace Json.Value

/-- An item is nested less deeply than its array. -/
theorem nesting_lt_of_mem_items {v : Value} {items : List Value} (h : v ∈ items)
    (ending : Ending) : v.nesting < (Value.array items ending).nesting := by
  have hle : v.nesting ≤ nestingItems items := by
    induction items with
    | nil => cases h
    | cons w rest ih =>
      rcases List.mem_cons.mp h with rfl | h
      · exact Nat.le_max_left _ _
      · exact Nat.le_trans (ih h) (Nat.le_max_right _ _)
  rw [nesting]
  omega

/-- The value of a member is nested less deeply than its object. -/
theorem nesting_lt_of_mem_members {m : Text × Value} {members : List (Text × Value)}
    (h : m ∈ members) (ending : Ending) :
    m.2.nesting < (Value.object members ending).nesting := by
  have hle : m.2.nesting ≤ nestingMembers members := by
    induction members with
    | nil => cases h
    | cons other rest ih =>
      rcases List.mem_cons.mp h with rfl | h
      · exact Nat.le_max_left _ _
      · exact Nat.le_trans (ih h) (Nat.le_max_right _ _)
  rw [nesting]
  omega

end Json.Value

/-- Nothing is read from a value that is refused. -/
theorem Json.Value.refuse_ne_ok (v : Value) (wanted : Wanted) (a : α) :
    v.refuse wanted ≠ .ok a := by
  intro h
  obtain ⟨found, -, h⟩ := Outcome.bind_eq_ok h
  cases h

namespace Codec

/-- Every item that is read comes from an item of the array. -/
theorem readItems_eq_ok {read : Value → Read α} {items : List Value} {as : List α}
    (h : readItems read items = .ok as) : ∀ a ∈ as, ∃ v ∈ items, read v = .ok a := by
  induction items generalizing as with
  | nil =>
    obtain rfl : [] = as := Except.ok.inj h
    nofun
  | cons v rest ih =>
    obtain ⟨b, hb, h⟩ := Outcome.bind_eq_ok h
    obtain ⟨bs, hbs, h⟩ := Outcome.bind_eq_ok h
    obtain rfl : b :: bs = as := Except.ok.inj h
    intro a ha
    rcases List.mem_cons.mp ha with rfl | ha
    · exact ⟨v, by simp, hb⟩
    · obtain ⟨w, hw, hread⟩ := ih hbs a ha
      exact ⟨w, by simp [hw], hread⟩

/-- Every item of a list is read from a value inside the value of the list. -/
theorem list_read_eq_ok {c : Codec α} {v : Value} {as : List α} (h : c.list.read v = .ok as) :
    ∀ a ∈ as, ∃ w : Value, w.nesting < v.nesting ∧ c.read w = .ok a := by
  cases v with
  | array items ending =>
    obtain ⟨bs, hbs, h⟩ := Outcome.bind_eq_ok h
    obtain ⟨-, -, h⟩ := Outcome.bind_eq_ok h
    obtain rfl : bs = as := Except.ok.inj h
    intro a ha
    obtain ⟨w, hw, hread⟩ := readItems_eq_ok hbs a ha
    exact ⟨w, Value.nesting_lt_of_mem_items hw ending, hread⟩
  | _ => exact absurd h (Value.refuse_ne_ok _ _ _)

/-- A datum that may be absent is read from the same value when it is there. -/
theorem option_read_eq_ok {c : Codec α} {v : Value} {a : α}
    (h : c.option.read v = .ok (some a)) : c.read v = .ok a := by
  cases v with
  | null => cases h
  | _ =>
    obtain ⟨b, hb, h⟩ := Outcome.map_eq_ok h
    obtain rfl : b = a := Option.some.inj h
    exact hb

end Codec

/-- The value of a field was read from a value that is nested less than `level` deep, or the
field was left out and this is what the record takes for it. -/
def Field.From (field : Field β) (level : Nat) (b : β) : Prop :=
  (∃ w : Value, w.nesting < level ∧ field.codec.read w = .ok b) ∨
    field.absence = .optional b ∨ field.absence = .allowed b

namespace Fields

variable {ts : List Type}

/-- Every value of the row comes from a value that is nested less than `level` deep, or is what
the record takes for a field that is left out. -/
def From (level : Nat) : {ts : List Type} → Fields ts → Row ts → Prop
  | _, .nil, _ => True
  | _, .cons field rest, (value, values) => field.From level value ∧ rest.From level values

/-- The row that the members of an object are read as comes from those members. -/
theorem from_of_reads {level : Nat} : {ts : List Type} → (fields : Fields ts) →
    {members : List (Text × Value)} → {row : Row ts} → (∀ m ∈ members, m.2.nesting < level) →
    fields.Reads members row → fields.From level row
  | _, .nil, _, _, _, _ => trivial
  | _, .cons field rest, members, (value, values), hmembers, h => by
    refine ⟨?_, from_of_reads rest (fun m hm => hmembers m (List.mem_of_mem_filter hm)) h.2⟩
    obtain ⟨slot, hslot, rfl | ⟨-, habsence⟩⟩ := Field.reads_iff.mp h.1
    · obtain ⟨m, hm, hread⟩ := Outcome.exists_of_mem_right hslot value (by simp)
      exact .inl ⟨m.2, hmembers m (List.mem_of_mem_filter hm), hread⟩
    · exact .inr habsence

/-- The row that is read from the items of an array comes from those items. -/
theorem from_of_readItems {level : Nat} {short : Nat → Complaint} {ending : Ending} :
    {ts : List Type} → (fields : Fields ts) → {index : Nat} → {items : List Value} →
    {row : Row ts} → (∀ v ∈ items, v.nesting < level) →
    fields.readItems short ending index items = .ok row → fields.From level row
  | _, .nil, _, _, _, _, _ => trivial
  | _, .cons field rest, _, v :: items, (value, values), hitems, h => by
    obtain ⟨b, hb, h⟩ := Outcome.bind_eq_ok h
    obtain ⟨bs, hbs, h⟩ := Outcome.bind_eq_ok h
    obtain ⟨rfl, rfl⟩ := Prod.mk.inj (Except.ok.inj h)
    have hrest : ∀ u ∈ items, u.nesting < level := fun u hu => hitems u (by simp [hu])
    exact ⟨.inl ⟨v, hitems v (by simp), hb⟩, from_of_readItems rest hrest hbs⟩
  | _, .cons field rest, _, [], (value, values), hitems, h => by
    obtain ⟨-, -, h⟩ := Outcome.bind_eq_ok h
    split at h
    · obtain ⟨bs, hbs, h⟩ := Outcome.bind_eq_ok h
      obtain ⟨rfl, rfl⟩ := Prod.mk.inj (Except.ok.inj h)
      exact ⟨.inr (.inr ‹_›), from_of_readItems rest hitems hbs⟩
    · cases h

end Fields

/-- A record that is read is made from a row whose values come from inside the value read. -/
theorem Record.read_eq_ok {r : Record ρ} {v : Value} {x : ρ} (h : r.codec.read v = .ok x) :
    ∃ row, r.ofRow row = x ∧ r.fields.From v.nesting row := by
  cases v with
  | object members ending =>
    obtain ⟨-, row, hreads, hx⟩ := Record.read_object_eq_ok_iff.mp h
    exact ⟨row, hx,
      r.fields.from_of_reads (fun m hm => Value.nesting_lt_of_mem_members hm ending) hreads⟩
  | array items ending =>
    obtain ⟨row, hrow, h⟩ := Outcome.bind_eq_ok h
    exact ⟨row, Except.ok.inj h,
      r.fields.from_of_readItems (fun v hv => Value.nesting_lt_of_mem_items hv ending) hrow⟩
  | _ => exact absurd h (Value.refuse_ne_ok _ _ _)

/-- A variant that is read is one without a payload, or its payload is read from a value inside. -/
theorem Variant.read_eq_ok {variants : List (Variant σ)} {v : Value} {s : σ}
    (h : Variant.read variants v = .ok s) :
    ∃ variant ∈ variants, variant.payload = .absent s ∨
      ∃ read w, variant.payload = .present read ∧ w.nesting < v.nesting ∧ read w = .ok s := by
  have hselect {name : String} {payload : Payload σ}
      (hpayload : Variant.select variants name = .ok payload) :
      ∃ variant ∈ variants, variant.payload = payload := by
    rw [Variant.select] at hpayload
    split at hpayload
    · exact ⟨_, List.mem_of_find?_eq_some ‹_›, Except.ok.inj hpayload⟩
    · cases hpayload
  unfold Variant.read at h
  split at h
  · obtain ⟨name, -, h⟩ := Outcome.bind_eq_ok h
    obtain ⟨payload, hpayload, h⟩ := Outcome.bind_eq_ok h
    obtain ⟨variant, hmem, rfl⟩ := hselect hpayload
    split at h
    · obtain rfl := Except.ok.inj h
      exact ⟨variant, hmem, .inl ‹_›⟩
    · cases h
  · cases h
  · cases h
  · obtain ⟨name, -, h⟩ := Outcome.bind_eq_ok h
    obtain ⟨value, hvalue, h⟩ := Outcome.bind_eq_ok h
    obtain ⟨-, -, h⟩ := Outcome.bind_eq_ok h
    obtain rfl := Except.ok.inj h
    obtain ⟨payload, hpayload, hvalue⟩ := Outcome.bind_eq_ok hvalue
    obtain ⟨variant, hmem, rfl⟩ := hselect hpayload
    refine ⟨variant, hmem, ?_⟩
    split at hvalue
    · split at hvalue
      · obtain rfl := Except.ok.inj hvalue
        exact .inl ‹_›
      · exact absurd hvalue (Value.refuse_ne_ok _ _ _)
    · exact .inr ⟨_, _, ‹_›, Value.nesting_lt_of_mem_members (List.mem_cons_self ..) _, hvalue⟩
  · cases h
  · cases h
  · cases h

end JsonnetTree
