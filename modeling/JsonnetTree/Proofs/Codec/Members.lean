import JsonnetTree.Codec.Record
import JsonnetTree.Proofs.Outcome

/-!
# How the members of an object make a record

A record is read from an object member by member. What is read does not depend on their order: each
field takes the one member that has its name, or what stands for it when there is none, and the
members that are left over only have to be well formed (`Record.read_object_eq_ok_iff`).
-/

namespace JsonnetTree

open Json

variable {β ρ : Type} {ts : List Type}

/-- Only a closing bracket ends a list well. -/
theorem Json.Ending.eq_closed_of_check {ending : Ending} {u : Unit}
    (h : Read.ofFault ending.check = .ok u) : ending = .closed := by
  cases ending with
  | closed => rfl
  | stopped found | noKey found => cases h

/-- What a field is read as when these are the members of its name. -/
def Field.Reads (field : Field β) : List (Text × Value) → β → Prop
  | [], b => field.absence = .optional b ∨ field.absence = .allowed b
  | [m], b => field.codec.read m.2 = .ok b
  | _, _ => False

/-- The members of its name are read into the slot of a field, and its value is what stands there or
what stands for it when the slot stays empty. -/
theorem Field.reads_iff {field : Field β} {members : List (Text × Value)} {b : β} :
    field.Reads members b ↔ ∃ slot : Option β,
      List.Forall₂ (fun m c => field.codec.read m.2 = .ok c) members slot.toList ∧
        (slot = some b ∨
          slot = none ∧ (field.absence = .optional b ∨ field.absence = .allowed b)) := by
  constructor
  · intro h
    cases members with
    | nil => exact ⟨none, .nil, .inr ⟨rfl, h⟩⟩
    | cons m members =>
      cases members with
      | nil => exact ⟨some b, .cons h .nil, .inl rfl⟩
      | cons => cases h
  · rintro ⟨slot, hslot, rfl | ⟨rfl, habsence⟩⟩
    · obtain ⟨m, ms, hread, hms, rfl⟩ := List.forall₂_cons_right_iff.mp hslot
      obtain rfl := List.forall₂_nil_right_iff.mp hms
      exact hread
    · obtain rfl := List.forall₂_nil_right_iff.mp hslot
      exact habsence

namespace Fields

/-- The names of the fields, in order. -/
def names : {ts : List Type} → Fields ts → List String
  | _, .nil => []
  | _, .cons field rest => field.name :: rest.names

/-- What the fields are read as when these are the members of an object. -/
def Reads : {ts : List Type} → Fields ts → List (Text × Value) → Row ts → Prop
  | _, .nil, members, _ => ∀ m ∈ members, m.1 ≠ .unpaired ∧ m.2.pass = .ok ()
  | _, .cons field rest, members, (value, values) =>
    field.Reads (members.filter (·.1 = .plain field.name)) value ∧
      rest.Reads (members.filter (·.1 ≠ .plain field.name)) values

/-- The fields have this one, after those with the given names. -/
inductive Has : {ts : List Type} → {β : Type} → Fields ts → List String → Field β → Prop
  | head {β : Type} {ts : List Type} {field : Field β} {rest : Fields ts} :
      Has (.cons field rest) [] field
  | tail {β γ : Type} {ts : List Type} {field : Field β} {other : Field γ} {rest : Fields ts}
      {before : List String} : Has rest before field →
      Has (.cons other rest) (other.name :: before) field

/-! ## Reading member by member -/

/-- Where there are no fields, all members are passed over. -/
theorem readMembers_nil_eq_ok_iff {members : List (Text × Value)} {slots slots' : Slots []} :
    Fields.nil.readMembers members slots = .ok slots' ↔
      ∀ m ∈ members, m.1 ≠ .unpaired ∧ m.2.pass = .ok () := by
  induction members with
  | nil => exact iff_of_true rfl nofun
  | cons m members ih =>
    obtain ⟨key, v⟩ := m
    rw [List.forall_mem_cons, ← ih]
    cases key with
    | unpaired => simp [readMembers, Text.content, bind, Except.bind]
    | plain name =>
      cases hpass : v.pass with
      | error fault =>
        simp [readMembers, Text.content, put, hpass, Read.ofFault, bind, Except.bind]
      | ok u => simp [readMembers, Text.content, put, hpass, Read.ofFault, bind, Except.bind]

/-- The first member is read before the others. -/
theorem readMembers_cons (fields : Fields ts) (m : Text × Value) (members : List (Text × Value))
    (slots : Slots ts) :
    fields.readMembers (m :: members) slots =
      fields.readMembers [m] slots >>= fields.readMembers members := by
  obtain ⟨key, v⟩ := m
  cases key with
  | unpaired => rfl
  | plain name =>
    simp only [readMembers, Text.content, bind, Except.bind]
    cases fields.put slots name v with
    | error complaint => rfl
    | ok slots? =>
      cases slots? with
      | some slots' => rfl
      | none => cases Read.ofFault v.pass <;> rfl

/-- A member of another name than that of the first field goes to the other fields. -/
theorem readMembers_singleton_of_ne {field : Field β} {m : Text × Value}
    (h : m.1 ≠ .plain field.name) (rest : Fields ts) (slot : Option β) (slots : Slots ts) :
    (Fields.cons field rest).readMembers [m] (slot, slots) =
      (slot, ·) <$> rest.readMembers [m] slots := by
  obtain ⟨key, v⟩ := m
  cases key with
  | unpaired => rfl
  | plain name =>
    have hname : name ≠ field.name := fun heq => h (congrArg Text.plain heq)
    simp only [readMembers, Text.content, put, if_neg hname, bind, Except.bind]
    cases rest.put slots name v with
    | error complaint => rfl
    | ok slots? =>
      cases slots? with
      | some slots' => rfl
      | none => cases Read.ofFault v.pass <;> rfl

/-- The first field takes the members of its name, if its slot is still free, and the other members
go to the other fields. -/
theorem readMembers_cons_eq_ok_iff {field : Field β} {rest : Fields ts}
    {members : List (Text × Value)} {slot slot' : Option β} {slots slots' : Slots ts} :
    (Fields.cons field rest).readMembers members (slot, slots) = .ok (slot', slots') ↔
      (∃ bs, List.Forall₂ (fun m b => field.codec.read m.2 = .ok b)
        (members.filter (·.1 = .plain field.name)) bs ∧ slot.toList ++ bs = slot'.toList) ∧
      rest.readMembers (members.filter (·.1 ≠ .plain field.name)) slots = .ok slots' := by
  induction members generalizing slot slots with
  | nil =>
    have hslot : slot.toList = slot'.toList ↔ slot = slot' := by
      cases slot <;> cases slot' <;> simp
    simp only [List.filter_nil, List.forall₂_nil_left_iff, exists_eq_left, List.append_nil, hslot]
    constructor
    · intro h
      obtain ⟨rfl, rfl⟩ := Prod.mk.inj (Except.ok.inj h)
      exact ⟨rfl, rfl⟩
    · rintro ⟨rfl, hslots⟩
      obtain rfl := Except.ok.inj hslots
      rfl
  | cons m members ih =>
    rw [readMembers_cons (.cons field rest) m members (slot, slots)]
    by_cases hm : m.1 = .plain field.name
    · rw [List.filter_cons_of_pos (by simpa using hm), List.filter_cons_of_neg (by simpa using hm)]
      obtain ⟨key, v⟩ := m
      obtain rfl : key = .plain field.name := hm
      simp only [readMembers, Text.content, put, if_pos, bind, Except.bind,
        List.forall₂_cons_left_iff]
      cases slot with
      | some b =>
        refine iff_of_false nofun ?_
        rintro ⟨⟨_, ⟨c, cs, -, -, rfl⟩, hslot⟩, -⟩
        -- two values do not fit into one slot
        cases slot' <;> cases hslot
      | none =>
        cases field.codec.read v with
        | error complaint =>
          refine iff_of_false nofun ?_
          rintro ⟨⟨_, ⟨c, cs, hread, -⟩, -⟩, -⟩
          cases hread
        | ok b =>
          refine ih.trans (and_congr_left' ⟨?_, ?_⟩)
          · rintro ⟨bs, hbs, hslot⟩
            exact ⟨b :: bs, ⟨b, bs, rfl, hbs, rfl⟩, hslot⟩
          · rintro ⟨_, ⟨c, bs, hread, hbs, rfl⟩, hslot⟩
            obtain rfl := Except.ok.inj hread
            exact ⟨bs, hbs, hslot⟩
    · rw [List.filter_cons_of_neg (by simpa using hm), List.filter_cons_of_pos (by simpa using hm),
        readMembers_singleton_of_ne hm, readMembers_cons rest m (members.filter _)]
      cases rest.readMembers [m] slots with
      | error complaint =>
        refine iff_of_false nofun ?_
        rintro ⟨-, h⟩
        cases h
      | ok slots₁ => exact ih

/-- The first field has what stands in its slot, or what stands for it when that is empty. -/
theorem fill_cons_eq_ok_iff {field : Field β} {rest : Fields ts} {slot : Option β}
    {slots : Slots ts} {value : β} {values : Row ts} :
    (Fields.cons field rest).fill (slot, slots) = .ok (value, values) ↔
      (slot = some value ∨
        slot = none ∧ (field.absence = .optional value ∨ field.absence = .allowed value)) ∧
      rest.fill slots = .ok values := by
  have hlast (b : β) : (rest.fill slots >>= fun bs => .ok (b, bs)) = .ok (value, values) ↔
      b = value ∧ rest.fill slots = .ok values := by
    constructor
    · intro h
      obtain ⟨bs, hbs, h⟩ := Outcome.bind_eq_ok h
      obtain ⟨rfl, rfl⟩ := Prod.mk.inj (Except.ok.inj h)
      exact ⟨rfl, hbs⟩
    · rintro ⟨rfl, hbs⟩
      rw [hbs]
      rfl
  cases slot with
  | some b => exact (hlast b).trans (by simp)
  | none =>
    cases habsence : field.absence with
    | refused =>
      simp only [fill, habsence]
      exact iff_of_false nofun (by simp)
    | optional b | allowed b =>
      simp only [fill, habsence]
      exact (hlast b).trans (by simp)

/-- The members of an object give the row that they are read as. -/
theorem exists_readMembers_iff : {ts : List Type} → (fields : Fields ts) →
    {members : List (Text × Value)} → {row : Row ts} →
    ((∃ slots, fields.readMembers members fields.noneRead = .ok slots ∧
      fields.fill slots = .ok row) ↔ fields.Reads members row)
  | _, .nil, members, row => by
    refine Iff.trans ⟨?_, ?_⟩ (@readMembers_nil_eq_ok_iff members () ())
    · rintro ⟨slots, h, -⟩
      exact h
    · intro h
      exact ⟨(), h, rfl⟩
  | _, .cons field rest, members, (value, values) => by
    rw [Reads, ← rest.exists_readMembers_iff, Field.reads_iff]
    constructor
    · rintro ⟨⟨slot, slots⟩, hmembers, hfill⟩
      obtain ⟨⟨bs, hbs, rfl⟩, hmembers⟩ := readMembers_cons_eq_ok_iff.mp hmembers
      obtain ⟨hvalue, hfill⟩ := fill_cons_eq_ok_iff.mp hfill
      exact ⟨⟨slot, hbs, hvalue⟩, slots, hmembers, hfill⟩
    · rintro ⟨⟨slot, hslot, hvalue⟩, slots, hmembers, hfill⟩
      exact ⟨(slot, slots), readMembers_cons_eq_ok_iff.mpr ⟨⟨_, hslot, rfl⟩, hmembers⟩,
        fill_cons_eq_ok_iff.mpr ⟨hvalue, hfill⟩⟩

end Fields

/-- A record is read from an object that is closed, as what its fields are read as. -/
theorem Record.read_object_eq_ok_iff {r : Record ρ} {members : List (Text × Value)}
    {ending : Ending} {x : ρ} :
    r.codec.read (.object members ending) = .ok x ↔
      ending = .closed ∧ ∃ row, r.fields.Reads members row ∧ r.ofRow row = x := by
  constructor
  · intro h
    obtain ⟨slots, hslots, h⟩ := Outcome.bind_eq_ok h
    obtain ⟨_, hending, h⟩ := Outcome.bind_eq_ok h
    obtain ⟨row, hrow, h⟩ := Outcome.bind_eq_ok h
    exact ⟨Ending.eq_closed_of_check hending, row,
      r.fields.exists_readMembers_iff.mp ⟨slots, hslots, hrow⟩, Except.ok.inj h⟩
  · rintro ⟨rfl, row, hreads, rfl⟩
    obtain ⟨slots, hslots, hrow⟩ := r.fields.exists_readMembers_iff.mpr hreads
    simp only [codec, hslots, Ending.check, Read.ofFault, hrow, bind, Except.bind]

/-! ## Changes of members that change nothing -/

/-- The order of the members of its name does not matter to a field. -/
theorem Field.Reads.perm {field : Field β} {members members' : List (Text × Value)} {b : β}
    (h : field.Reads members b) (hperm : members.Perm members') : field.Reads members' b := by
  cases members with
  | nil => rwa [← hperm.nil_eq]
  | cons m members =>
    cases members with
    | nil => rwa [← hperm.singleton_eq]
    | cons => cases h

namespace Fields

/-- The order of members does not matter. -/
theorem Reads.perm {members members' : List (Text × Value)} (hperm : members.Perm members') :
    {ts : List Type} → {fields : Fields ts} → {row : Row ts} → fields.Reads members row →
    fields.Reads members' row
  | _, .nil, _, h => fun m hm => h m (hperm.mem_iff.mpr hm)
  | _, .cons _ _, (_, _), h =>
    ⟨h.1.perm (hperm.filter _), Reads.perm (hperm.filter _) h.2⟩

/-- One more member that has the name of no field does not matter. -/
theorem Reads.insert {name : String} {v : Value} (hv : v.pass = .ok ()) :
    {ts : List Type} → {fields : Fields ts} → {members : List (Text × Value)} → {row : Row ts} →
    name ∉ fields.names → fields.Reads members row →
    fields.Reads ((.plain name, v) :: members) row
  | _, .nil, _, _, _, h => List.forall_mem_cons.mpr ⟨⟨nofun, hv⟩, h⟩
  | _, .cons field rest, members, (value, values), hname, h => by
    obtain ⟨hne, hrest⟩ := not_or.mp (List.mem_cons.not.mp hname)
    refine ⟨?_, ?_⟩
    · rw [List.filter_cons_of_neg (by simpa using hne)]
      exact h.1
    · rw [List.filter_cons_of_pos (by simpa using hne)]
      exact Reads.insert hv hrest h.2

/-- Members of a name are taken by the field of this name and not left to the others. -/
theorem filter_append_of_eq {name : String} {own : List (Text × Value)}
    (h : ∀ m ∈ own, m.1 = .plain name) (members : List (Text × Value)) :
    (own ++ members).filter (·.1 = .plain name) = own ++ members.filter (·.1 = .plain name) ∧
      (own ++ members).filter (·.1 ≠ .plain name) = members.filter (·.1 ≠ .plain name) := by
  have hall : own.filter (·.1 = .plain name) = own := List.filter_eq_self.mpr (by simpa using h)
  have hnone : own.filter (·.1 ≠ .plain name) = [] := List.filter_eq_nil_iff.mpr (by simpa using h)
  rw [List.filter_append, List.filter_append, hall, hnone]
  exact ⟨rfl, rfl⟩

/-- Members of other names are left to the other fields. -/
theorem filter_append_of_ne {name : String} {others : List (Text × Value)}
    (h : ∀ m ∈ others, m.1 ≠ .plain name) (members : List (Text × Value)) :
    (others ++ members).filter (·.1 = .plain name) = members.filter (·.1 = .plain name) ∧
      (others ++ members).filter (·.1 ≠ .plain name) =
        others ++ members.filter (·.1 ≠ .plain name) := by
  have hnone : others.filter (·.1 = .plain name) = [] :=
    List.filter_eq_nil_iff.mpr (by simpa using h)
  have hall : others.filter (·.1 ≠ .plain name) = others :=
    List.filter_eq_self.mpr (by simpa using h)
  rw [List.filter_append, List.filter_append, hall, hnone]
  exact ⟨rfl, rfl⟩

/-- Members of one field can be exchanged for others that the field reads alike. -/
theorem Reads.exchange {fields : Fields ts} {before : List String} {field : Field β}
    (hfield : fields.Has before field) (hname : field.name ∉ before)
    {old new : List (Text × Value)} (hold : ∀ m ∈ old, m.1 = .plain field.name)
    (hnew : ∀ m ∈ new, m.1 = .plain field.name)
    (hreads : ∀ members b, field.Reads (old ++ members) b → field.Reads (new ++ members) b)
    {members : List (Text × Value)} {row : Row ts} (h : fields.Reads (old ++ members) row) :
    fields.Reads (new ++ members) row := by
  -- through the fields before this one, to which neither the old members go nor the new ones
  induction hfield generalizing members with
  | head =>
    obtain ⟨value, values⟩ := row
    simp only [Reads, filter_append_of_eq hold] at h
    simp only [Reads, filter_append_of_eq hnew]
    exact ⟨hreads _ _ h.1, h.2⟩
  | @tail _ _ _ field other _ _ _ ih =>
    obtain ⟨hne, hname⟩ := not_or.mp (List.mem_cons.not.mp hname)
    obtain ⟨value, values⟩ := row
    have hother {own : List (Text × Value)} (hown : ∀ m ∈ own, m.1 = .plain field.name) :
        ∀ m ∈ own, m.1 ≠ .plain other.name := by
      intro m hm heq
      exact hne (Text.plain.inj ((hown m hm).symm.trans heq))
    simp only [Reads, filter_append_of_ne (hother hold)] at h
    simp only [Reads, filter_append_of_ne (hother hnew)]
    exact ⟨h.1, ih hname hold hnew hreads h.2⟩

end Fields

end JsonnetTree
