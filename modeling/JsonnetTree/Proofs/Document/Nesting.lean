import JsonnetTree.Proofs.Document.DepthBound
import JsonnetTree.Proofs.Document.Style

/-!
# The nesting of a document

The brackets of a document are counted before any of it is read. Of a text that the reader accepts
as one value the count is the nesting of that value, and every document that a tree is read from is
such a text (`Tree.bracketDepth_document`). The count may look at characters or at the bytes of the
text: no byte of a character that takes several can be taken for a bracket, a quote or a backslash.
-/

namespace JsonnetTree

namespace Json

/-! ## Texts that the reader accepts -/

/-- The reader accepts the text as the value: nothing but blanks stands around the value, and the
reader passes over it without a fault. -/
def IsDocument (text : List Char) (v : Value) : Prop :=
  Reading.ofChars text = ⟨v, false⟩ ∧ v.pass = .ok ()

/-- The reader does not pass over an open value. -/
theorem Value.not_isOpen_of_pass {v : Value} (h : v.pass = .ok ()) : ¬v.IsOpen := by
  cases v with
  | array items ending | object members ending =>
    obtain ⟨-, -, hcheck⟩ := Outcome.bind_eq_ok h
    cases ending with
    | closed => exact not_not.mpr rfl
    | stopped found | noKey found => cases hcheck
  | missing found | uncoloned found => cases h
  | null | bool _ | number _ | string _ => exact id

/-- Whatever has been read inside an open bracket breaks off nowhere. -/
def Frame.IsWhole : Frame → Prop
  | .array items => ∀ v ∈ items, v.IsWhole
  | .object members _ => ∀ m ∈ members, m.2.IsWhole

/-- Whatever has been read breaks off nowhere, unless the machine has stopped. -/
def State.IsWhole : State → Prop
  | .wantValue frames | .wantItem frames => ∀ frame ∈ frames, frame.IsWhole
  | .wantKey members frames | .wantColon members _ frames =>
    (∀ m ∈ members, m.2.IsWhole) ∧ ∀ frame ∈ frames, frame.IsWhole
  | .complete v frames => v.IsWhole ∧ ∀ frame ∈ frames, frame.IsWhole
  | .stopped _ => True

/-- An array that is closed breaks off nowhere if none of its items does. -/
theorem Value.isWhole_reverse_items {items : List Value} (h : ∀ v ∈ items, v.IsWhole) :
    (Value.array items.reverse .closed).IsWhole :=
  .array fun v hv => h v (List.mem_reverse.mp hv)

/-- An object that is closed breaks off nowhere if none of its members does. -/
theorem Value.isWhole_reverse_members {members : List (Text × Value)}
    (h : ∀ m ∈ members, m.2.IsWhole) : (Value.object members.reverse .closed).IsWhole :=
  .object fun m hm => h m (List.mem_reverse.mp hm)

namespace State

/-- A token where a value must come. -/
theorem isWhole_stepValue {frames : List Frame} (h : ∀ frame ∈ frames, frame.IsWhole)
    (token : Token) : (stepValue frames token).IsWhole := by
  cases token with
  | null => exact ⟨.null, h⟩
  | bool b => exact ⟨.bool b, h⟩
  | number n => exact ⟨.number n, h⟩
  | text t => exact ⟨.string t, h⟩
  | openArray => exact List.forall_mem_cons.mpr ⟨List.forall_mem_nil _, h⟩
  | openObject => exact ⟨List.forall_mem_nil _, h⟩
  | _ => trivial

/-- A token that follows a complete value. -/
theorem isWhole_stepComplete {v : Value} {frames : List Frame} (hv : v.IsWhole)
    (h : ∀ frame ∈ frames, frame.IsWhole) (token : Token) :
    (stepComplete v frames token).IsWhole := by
  cases frames with
  | nil => trivial
  | cons frame frames =>
    obtain ⟨hframe, hframes⟩ := List.forall_mem_cons.mp h
    cases frame with
    | array items =>
      have hitems : ∀ u ∈ v :: items, u.IsWhole := List.forall_mem_cons.mpr ⟨hv, hframe⟩
      cases token with
      | comma => exact List.forall_mem_cons.mpr ⟨hitems, hframes⟩
      | closeArray => exact ⟨Value.isWhole_reverse_items hitems, hframes⟩
      | _ => trivial
    | object members key =>
      have hmembers : ∀ m ∈ (key, v) :: members, m.2.IsWhole :=
        List.forall_mem_cons.mpr ⟨hv, hframe⟩
      cases token with
      | comma => exact ⟨hmembers, hframes⟩
      | closeObject => exact ⟨Value.isWhole_reverse_members hmembers, hframes⟩
      | _ => trivial

/-- One more token leaves whole what has been read. -/
theorem IsWhole.step {state : State} (h : state.IsWhole) (token : Token) :
    (state.step token).IsWhole := by
  cases state with
  | wantValue frames => exact isWhole_stepValue h token
  | wantItem frames =>
    by_cases htoken : token = .closeArray
    · subst htoken
      cases frames with
      | nil => trivial
      | cons frame frames =>
        obtain ⟨hframe, hframes⟩ := List.forall_mem_cons.mp h
        cases frame with
        | array items => exact ⟨Value.isWhole_reverse_items hframe, hframes⟩
        | object members key => trivial
    · rw [step_wantItem htoken]
      exact isWhole_stepValue h token
  | wantKey members frames =>
    cases token with
    | text t => exact h
    | closeObject =>
      cases members with
      | nil => exact ⟨.object h.1, h.2⟩
      | cons m members => trivial
    | _ => trivial
  | wantColon members key frames =>
    cases token with
    | colon => exact List.forall_mem_cons.mpr h
    | _ => trivial
  | complete v frames => exact isWhole_stepComplete h.1 h.2 token
  | stopped v => trivial

/-- Any tokens leave whole what has been read. -/
theorem IsWhole.foldl {state : State} (h : state.IsWhole) (ts : List Token) :
    (ts.foldl State.step state).IsWhole := by
  induction ts generalizing state with
  | nil => exact h
  | cons t ts ih => exact ih (h.step t)

end State

/-- The reader accepts a text as a value if and only if the machine that builds values ends with
the value and no open bracket. -/
theorem isDocument_iff {text : List Char} {v : Value} :
    IsDocument text v ↔ (tokens text).foldl State.step .start = .complete v [] := by
  constructor
  · rintro ⟨hreading, hpass⟩
    rw [Reading.ofChars] at hreading
    -- A value that is left open cannot be passed over, and what follows a value would be noted.
    rcases ((tokens text).foldl State.step .start).isOpen_finish with hopen | htrailing | ⟨u, hu⟩
    · rw [hreading] at hopen
      exact absurd hopen (Value.not_isOpen_of_pass hpass)
    · rw [hreading] at htrailing
      cases htrailing
    · rw [hu] at hreading ⊢
      cases hreading
      rfl
  · intro h
    have hwhole : State.start.IsWhole := List.forall_mem_nil _
    have hend := hwhole.foldl (tokens text)
    rw [h] at hend
    exact ⟨by rw [Reading.ofChars, h]; rfl, hend.1.pass_eq_ok⟩

/-! ## Counting bytes -/

/-- The bytes of a character, each as the character with its number. -/
def byteChars (c : Char) : List Char :=
  (String.utf8EncodeChar c).map Char.ofUInt8

/-- How deeply the brackets of a text are nested when its bytes are counted. -/
def byteBracketDepth (text : List Char) : Nat :=
  bracketDepth (text.flatMap byteChars)

/-- A byte has its own number as a character. -/
theorem toNat_ofUInt8 {n : Nat} (h : n < 256) : (Char.ofUInt8 (UInt8.ofNat n)).toNat = n := by
  have hchar : (Char.ofUInt8 (UInt8.ofNat n)).toNat = (UInt8.ofNat n).toUInt32.toNat := rfl
  rw [hchar, UInt8.toNat_toUInt32, UInt8.toNat_ofNat']
  omega

/-- One of the first 128 characters is its only byte. -/
theorem byteChars_of_narrow {c : Char} (hc : c.toNat ≤ 127) : byteChars c = [c] := by
  have hbytes : String.utf8EncodeChar c = [UInt8.ofNat c.toNat] := if_pos hc
  have hbyte : Char.ofUInt8 (UInt8.ofNat c.toNat) = c :=
    Char.toNat_inj.mp (toNat_ofUInt8 (by omega))
  rw [byteChars, hbytes, List.map_singleton, hbyte]

/-- The bytes of any other character have numbers above those of the first 128 characters. -/
theorem wide_of_mem_byteChars {c d : Char} (hc : 127 < c.toNat) (hd : d ∈ byteChars c) :
    127 < d.toNat := by
  have hbyte (n : Nat) (hlow : 127 < n) (hhigh : n < 256) :
      127 < (Char.ofUInt8 (UInt8.ofNat n)).toNat := by
    rwa [toNat_ofUInt8 hhigh]
  have hval : ¬c.val.toNat ≤ 127 := Nat.not_le_of_lt hc
  obtain ⟨byte, hmem, rfl⟩ := List.mem_map.mp hd
  rw [String.utf8EncodeChar, if_neg hval] at hmem
  -- Two, three or four bytes: whatever they hold of the character, their highest bit is set.
  split_ifs at hmem
  · simp only [List.mem_cons, List.not_mem_nil, or_false] at hmem
    rcases hmem with rfl | rfl <;> exact hbyte _ (by omega) (by omega)
  · simp only [List.mem_cons, List.not_mem_nil, or_false] at hmem
    rcases hmem with rfl | rfl | rfl <;> exact hbyte _ (by omega) (by omega)
  · simp only [List.mem_cons, List.not_mem_nil, or_false] at hmem
    rcases hmem with rfl | rfl | rfl | rfl <;> exact hbyte _ (by omega) (by omega)

namespace BracketCount

/-- The count after a character that may be escaped but means nothing otherwise. -/
def pastEscape (b : BracketCount) : BracketCount :=
  { b with escaped := b.escaped && !b.quoted }

/-- After an escaped character nothing more is escaped. -/
theorem pastEscape_pastEscape (b : BracketCount) : b.pastEscape.pastEscape = b.pastEscape := by
  simp [pastEscape]

/-- A character after the first 128 matters only where it is escaped. -/
theorem feed_of_wide (b : BracketCount) {c : Char} (hc : 127 < c.toNat) :
    b.feed c = b.pastEscape := by
  have hnarrow : ∀ d ∈ '\\' :: marks, d.toNat ≤ 127 := by simp [marks]
  have hne : c ∉ '\\' :: marks := fun h => absurd (hnarrow c h) (Nat.not_le_of_lt hc)
  obtain ⟨hback, hmark⟩ := not_or.mp (List.mem_cons.not.mp hne)
  -- Outside strings only marks count, and inside them the backslash and what it escapes.
  obtain ⟨quoted, escaped, depth, deepest⟩ := b
  cases quoted with
  | false =>
    rw [feed_of_not_mem_marks rfl hmark]
    simp [pastEscape]
  | true =>
    cases escaped with
    | true => rfl
    | false => exact feed_of_quoted rfl rfl ⟨fun h => hmark (h ▸ List.mem_cons_self), hback⟩

/-- Several such characters count as one of them. -/
theorem foldl_feed_of_wide (b : BracketCount) {cs : List Char} (hne : cs ≠ [])
    (h : ∀ c ∈ cs, 127 < c.toNat) : cs.foldl feed b = b.pastEscape := by
  induction cs generalizing b with
  | nil => exact absurd rfl hne
  | cons c cs ih =>
    rw [List.foldl_cons, feed_of_wide b (h c List.mem_cons_self)]
    cases cs with
    | nil => rfl
    | cons d ds =>
      have hrest : ∀ e ∈ d :: ds, 127 < e.toNat := fun e he => h e (List.mem_cons_of_mem c he)
      rw [ih b.pastEscape (List.cons_ne_nil d ds) hrest, pastEscape_pastEscape]

/-- A character and its bytes do the same to the count. -/
theorem foldl_feed_byteChars (b : BracketCount) (c : Char) :
    (byteChars c).foldl feed b = b.feed c := by
  by_cases hc : c.toNat ≤ 127
  · rw [byteChars_of_narrow hc]
    rfl
  · have hwide : 127 < c.toNat := Nat.lt_of_not_le hc
    have hne : byteChars c ≠ [] := List.map_eq_nil_iff.not.mpr String.utf8EncodeChar_ne_nil
    rw [foldl_feed_of_wide b hne fun d hd => wide_of_mem_byteChars hwide hd, feed_of_wide b hwide]

end BracketCount

/-- It does not matter whether the characters of a text or its bytes are counted. -/
theorem byteBracketDepth_eq (text : List Char) : byteBracketDepth text = bracketDepth text := by
  rw [byteBracketDepth, bracketDepth, bracketDepth, List.foldl_flatMap]
  simp only [BracketCount.foldl_feed_byteChars]

end Json

open Json

/-- Counting the brackets of a text measures nesting: for every text that the reader accepts as one
value, the count is how deeply arrays and objects are nested in that value, be it a count of
characters or of bytes. The reader accepts every text that a tree is read from. -/
theorem Tree.bracketDepth_document (text : List Char) :
    (∀ v, IsDocument text v → bracketDepth text = v.nesting ∧ byteBracketDepth text = v.nesting) ∧
      ∀ t, Tree.ofChars text = .ok t → ∃ v, IsDocument text v ∧ Tree.codec.read v = .ok t := by
  constructor
  · intro v hv
    have hdepth := bracketDepth_eq_nesting (isDocument_iff.mp hv)
    exact ⟨hdepth, (byteBracketDepth_eq text).trans hdepth⟩
  · intro t ht
    obtain ⟨v, hv, hread⟩ := exists_complete_of_ofChars ht
    exact ⟨v, isDocument_iff.mpr hv, hread⟩

/-- A document with an unknown member, whose key and strings hold brackets, escaped quotes, runs of
backslashes, a character of several bytes and half of a surrogate pair. -/
theorem Tree.bracketDepth_document_note :
    let text := (" \t\x7b\"shape\": \"raw\", \"[\\\\\\\"\x7b\\\\\":\r\n[\x7b\"]\\u005b\": " ++
      "\"\\\\é\\ud800\"\x7d, []], \"root\": \x7b\"kind\": \"literal_null\"\x7d\x7d\n").toList
    let v : Value := .object [(.plain "shape", .string (.plain "raw")),
      (.plain "[\\\"\x7b\\", .array [.object [(.plain "][", .string .unpaired)] .closed,
        .array [] .closed] .closed),
      (.plain "root", .object [(.plain "kind", .string (.plain "literal_null"))] .closed)] .closed
    let t : Tree := ⟨.raw, Build.null, []⟩
    IsDocument text v ∧ Tree.ofChars text = .ok t ∧ bracketDepth text = 3 ∧
      byteBracketDepth text = 3 ∧ ∃ u, IsDocument text u ∧ Tree.codec.read u = .ok t := by
  intro text v t
  have htokens : tokens text =
      [.openObject, .text (.plain "shape"), .colon, .text (.plain "raw"), .comma,
        .text (.plain "[\\\"\x7b\\"), .colon, .openArray, .openObject, .text (.plain "]["), .colon,
        .text .unpaired, .closeObject, .comma, .openArray, .closeArray, .closeArray, .comma,
        .text (.plain "root"), .colon, .openObject, .text (.plain "kind"), .colon,
        .text (.plain "literal_null"), .closeObject, .closeObject] := by decide +kernel
  have hv : IsDocument text v := isDocument_iff.mpr (by rw [htokens]; rfl)
  have ht : Tree.ofChars text = .ok t := by
    rw [ofChars, Reading.ofChars, htokens]
    rfl
  obtain ⟨hdepth, hread⟩ := bracketDepth_document text
  exact ⟨hv, ht, (hdepth v hv).1, (hdepth v hv).2, hread t ht⟩

end JsonnetTree
