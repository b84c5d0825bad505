import JsonnetTree.Codec.Variant
import JsonnetTree.Proofs.Codec.Members
import JsonnetTree.Proofs.Json.Scanning

/-!
# Codecs that read back what is written

One codec reads back what another one writes for a datum when reading gives the datum again, and
the value between them is proper. Each way of building codecs keeps this: a list is read back if
its items are, and a record if its fields are and have different names. The two codecs may
differ, because a codec for data of bounded height reads what one with another bound has written.
-/

namespace JsonnetTree

open Json

variable {α β ρ σ : Type}

/-- A proper value is written for the datum by the first codec, and the second one reads the datum
back from it. -/
structure Codec.ReadsBack (writer reader : Codec α) (a : α) : Prop where
  read_write : reader.read (writer.write a) = .ok a
  proper : (writer.write a).Proper

/-- The datum is read back and is not written as null, which would be read as its absence. -/
structure Codec.Solid (writer reader : Codec α) (a : α) : Prop
    extends Codec.ReadsBack writer reader a where
  write_ne_null : writer.write a ≠ .null

namespace Codec

/-- Strings are read back. -/
theorem string_solid (s : String) : Codec.string.Solid .string s :=
  ⟨⟨rfl, .string s⟩, nofun⟩

/-- Truth values are read back. -/
theorem boolean_solid (b : Bool) : Codec.boolean.Solid .boolean b :=
  ⟨⟨rfl, .bool b⟩, nofun⟩

/-- A natural number below the bound and within 64 bits is read back. -/
theorem readBelow_ofNat {n bound : Nat} (wanted : Wanted) (hn : n < bound) (hword : n < UInt64.size) :
    readBelow bound wanted (.ofNat n) = .ok n := by
  have hinteger : (Number.ofNat n).integer? = some (n : Int) := by
    simp only [Number.integer?, Number.ofNat, Number.isPlain, List.isEmpty_nil, Option.isNone_none,
      Bool.and_self, Bool.not_true, Bool.false_eq_true, if_false]
    exact if_pos hword
  simp only [Value.ofNat, readBelow, hinteger]
  rw [if_pos (by omega), Int.toNat_natCast]

/-- Natural numbers of 32 bits are read back. -/
theorem word32_solid (n : UInt32) : Codec.word32.Solid .word32 n := by
  refine ⟨⟨?_, .number n.toNat⟩, nofun⟩
  have hn : n.toNat < UInt32.size := n.toNat_lt
  have hread := readBelow_ofNat .word32 hn (Nat.lt_trans hn (by decide))
  simp only [word32, hread]
  exact congrArg Except.ok UInt32.ofNat_toNat

/-- Natural numbers of 64 bits are read back. -/
theorem word64_solid (n : UInt64) : Codec.word64.Solid .word64 n := by
  refine ⟨⟨?_, .number n.toNat⟩, nofun⟩
  have hn : n.toNat < UInt64.size := n.toNat_lt
  have hread := readBelow_ofNat .word64 hn hn
  simp only [word64, hread]
  exact congrArg Except.ok UInt64.ofNat_toNat

/-- Items are read back one after the other. -/
theorem readItems_map_write {c c' : Codec α} {as : List α} (h : ∀ a ∈ as, c.ReadsBack c' a) :
    readItems c'.read (as.map c.write) = .ok as := by
  induction as with
  | nil => rfl
  | cons a as ih =>
    have ha := (h a (by simp)).read_write
    have has := ih (fun b hb => h b (by simp [hb]))
    simp only [List.map_cons, readItems, ha, has, bind, Except.bind]

/-- A list is read back if its items are. -/
theorem list_solid {c c' : Codec α} {as : List α} (h : ∀ a ∈ as, c.ReadsBack c' a) :
    c.list.Solid c'.list as := by
  refine ⟨⟨?_, .array ?_⟩, nofun⟩
  · simp only [list, Value.ofList, readItems_map_write h, Ending.check, Read.ofFault, bind,
      Except.bind]
  · intro v hv
    obtain ⟨a, ha, rfl⟩ := List.mem_map.mp hv
    exact (h a ha).proper

/-- A datum that may be absent is read back if it is so when it is there. -/
theorem option_readsBack {c c' : Codec α} {o : Option α} (h : ∀ a ∈ o, c.Solid c' a) :
    c.option.ReadsBack c'.option o := by
  cases o with
  | none => exact ⟨rfl, .null⟩
  | some a =>
    have ha := h a rfl
    refine ⟨?_, ha.proper⟩
    have hread : c'.option.read (c.write a) = some <$> c'.read (c.write a) := by
      simp only [option]
      split
      · exact absurd ‹_› ha.write_ne_null
      · rfl
    change c'.option.read (c.write a) = .ok (some a)
    rw [hread, ha.read_write]
    rfl

end Codec

/-! ## Variants -/

/-- A bare tag is read as the variant that has it. -/
theorem Variant.read_ofString {variants : List (Variant σ)} {tag : String} {s : σ}
    (hfind : variants.find? (·.tag == tag) = some ⟨tag, .absent s⟩) :
    Variant.read variants (.ofString tag) = .ok s := by
  simp only [Value.ofString, Variant.read, Text.content, Variant.readBare, Variant.select, hfind,
    bind, Except.bind]

/-- A tag with a payload is read as the variant that has it reads the payload. -/
theorem Variant.read_writeTagged {variants : List (Variant σ)} {tag : String}
    {read : Value → Read σ} (hfind : variants.find? (·.tag == tag) = some ⟨tag, .present read⟩)
    (payload : Value) :
    Variant.read variants (Variant.writeTagged tag payload) = read payload := by
  simp only [Variant.writeTagged, Value.ofMembers, List.map_cons, List.map_nil, Variant.read,
    Text.content, Variant.readTagged, Variant.select, hfind, Variant.checkEnd, bind, Except.bind]
  cases read payload <;> rfl

/-- A word of a closed set is read back if no other word of the set has its tag. -/
theorem Codec.word_solid {all : List σ} {tag : σ → String} {a : σ} (ha : a ∈ all)
    (htag : ∀ b ∈ all, tag b = tag a → b = a) : (Codec.word all tag).Solid (.word all tag) a := by
  refine ⟨⟨?_, .string _⟩, nofun⟩
  have hfind : (all.map fun b => (⟨tag b, .absent b⟩ : Variant σ)).find? (·.tag == tag a) =
      some ⟨tag a, .absent a⟩ := by
    induction all with
    | nil => cases ha
    | cons b all ih =>
      by_cases hb : tag b = tag a
      · obtain rfl := htag b (by simp) hb
        simp
      · have ha' : a ∈ all := by
          rcases List.mem_cons.mp ha with rfl | h
          · exact absurd rfl hb
          · exact h
        rw [List.map_cons, List.find?_cons_of_neg (by simpa using hb)]
        exact ih ha' (fun d hd => htag d (by simp [hd]))
  exact Variant.read_ofString hfind

/-! ## Records -/

/-- A member of an object under its key. -/
def keyed (m : String × Value) : Text × Value := (.plain m.1, m.2)

namespace Fields

variable {ts : List Type}

/-- The fields of a writer and of a reader agree in their names, and the reader reads back what
the writer writes for each value of the row. -/
def ReadsBack : {ts : List Type} → Fields ts → Fields ts → Row ts → Prop
  | _, .nil, .nil, _ => True
  | _, .cons field rest, .cons field' rest', (value, values) =>
    field.name = field'.name ∧ field.codec.ReadsBack field'.codec value ∧
      rest.ReadsBack rest' values

/-- The keys that are written are the names of the fields. -/
theorem map_fst_write : {ts : List Type} → (fields fields' : Fields ts) → (row : Row ts) →
    fields.ReadsBack fields' row → (fields.write row).map Prod.fst = fields'.names
  | _, .nil, .nil, _, _ => rfl
  | _, .cons _ rest, .cons _ rest', (_, values), h =>
    congrArg₂ List.cons h.1 (rest.map_fst_write rest' values h.2.2)

/-- The members that are written for a row are read as the row. -/
theorem reads_write : {ts : List Type} → (fields fields' : Fields ts) → (row : Row ts) →
    fields'.names.Nodup → fields.ReadsBack fields' row →
    fields'.Reads ((fields.write row).map keyed) row
  | _, .nil, .nil, _, _, _ => nofun
  | _, .cons field rest, .cons field' rest', (value, values), hnames, h => by
    obtain ⟨hname, hrest⟩ := List.nodup_cons.mp hnames
    obtain ⟨heq, hvalue, hvalues⟩ := h
    have hother : ∀ m ∈ (rest.write values).map keyed, m.1 ≠ .plain field'.name := by
      intro m hm hkey
      obtain ⟨written, hwritten, rfl⟩ := List.mem_map.mp hm
      rw [← rest.map_fst_write rest' values hvalues] at hname
      exact hname (List.mem_map.mpr ⟨written, hwritten, Text.plain.inj hkey⟩)
    simp only [write, List.map_cons, keyed, heq]
    refine ⟨?_, ?_⟩
    · rw [List.filter_cons_of_pos (by simp), List.filter_eq_nil_iff.mpr (by simpa using hother)]
      exact hvalue.read_write
    · rw [List.filter_cons_of_neg (by simp), List.filter_eq_self.mpr (by simpa using hother)]
      exact rest.reads_write rest' values hrest hvalues

/-- What is written for the values of a row is proper. -/
theorem proper_of_mem_write : {ts : List Type} → (fields fields' : Fields ts) → (row : Row ts) →
    fields.ReadsBack fields' row → ∀ m ∈ fields.write row, m.2.Proper
  | _, .nil, .nil, _, _ => nofun
  | _, .cons field rest, .cons field' rest', (value, values), h => by
    intro m hm
    rcases List.mem_cons.mp hm with rfl | hm
    · exact h.2.1.proper
    · exact rest.proper_of_mem_write rest' values h.2.2 m hm

end Fields

/-- A record is read back if its fields are and no two of them have the same name. -/
theorem Record.solid {name name' : String} {types : List Type} {fields fields' : Fields types}
    {toRow toRow' : ρ → Row types} {ofRow ofRow' : Row types → ρ} {x : ρ}
    (hnames : fields'.names.Nodup) (hrow : ofRow' (toRow x) = x)
    (h : fields.ReadsBack fields' (toRow x)) :
    (Record.mk name types fields toRow ofRow).codec.Solid
      (Record.mk name' types fields' toRow' ofRow').codec x := by
  refine ⟨⟨?_, .object (fields.proper_of_mem_write fields' _ h)⟩, nofun⟩
  exact Record.read_object_eq_ok_iff.mpr ⟨rfl, _, fields.reads_write fields' _ hnames h, hrow⟩

end JsonnetTree
