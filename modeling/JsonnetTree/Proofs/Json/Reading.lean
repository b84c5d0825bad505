import JsonnetTree.Json.Reader
import JsonnetTree.Proofs.Json.Scanning

/-!
# Reading written values

The machine that builds values from tokens gives back the value whose tokens it takes. With the
scanner this makes writing and reading inverse to each other, for both layouts.
-/

namespace JsonnetTree.Json

/-- The machine builds a value from its tokens, whatever is open around it. -/
def Value.Builds (v : Value) : Prop :=
  ∀ frames more, (v.toTokens ++ more).foldl State.step (.wantValue frames) =
    more.foldl State.step (.complete v frames)

/-- The items of an array that is not empty are put after those that it has. -/
theorem foldl_step_itemTokens {v : Value} {items : List Value}
    (h : ∀ u ∈ v :: items, u.Builds) (before : List Value) (frames : List Frame)
    (more : List Token) :
    (Value.itemTokens (v :: items) ++ .closeArray :: more).foldl State.step
        (.wantValue (.array before :: frames)) =
      more.foldl State.step (.complete (.ofList (before.reverse ++ v :: items)) frames) := by
  induction items generalizing v before with
  | nil =>
    rw [Value.itemTokens, h v (by simp)]
    simp [State.step, State.stepComplete, Value.ofList]
  | cons w items ih =>
    have hrest := ih (v := w) (fun u hu => h u (List.mem_cons_of_mem v hu)) (v :: before)
    have hv := h v (by simp) (.array before :: frames)
      (.comma :: (Value.itemTokens (w :: items) ++ .closeArray :: more))
    rw [Value.itemTokens, List.append_assoc, List.cons_append, hv, List.foldl_cons]
    · simpa [State.step, State.stepComplete] using hrest
    · simp

/-- The members of an object that is not empty are put after those that it has. -/
theorem foldl_step_memberTokens {m : String × Value} {members : List (String × Value)}
    (h : ∀ u ∈ m :: members, u.2.Builds) (before : List (Text × Value)) (frames : List Frame)
    (more : List Token) :
    (Value.memberTokens ((m :: members).map fun u => (.plain u.1, u.2)) ++
        .closeObject :: more).foldl State.step (.wantKey before frames) =
      more.foldl State.step (.complete (.object (before.reverse ++
        (m :: members).map fun u => (.plain u.1, u.2)) .closed) frames) := by
  induction members generalizing m before with
  | nil =>
    have hm := h m (by simp) (.object before (.plain m.1) :: frames) (.closeObject :: more)
    simp only [List.map_cons, List.map_nil, Value.memberTokens, List.cons_append, List.foldl_cons,
      State.step, hm]
    simp [State.stepComplete]
  | cons m' members ih =>
    have hrest := ih (m := m') (fun u hu => h u (List.mem_cons_of_mem m hu))
      ((.plain m.1, m.2) :: before)
    have hm := h m (by simp) (.object before (.plain m.1) :: frames)
      (.comma :: (Value.memberTokens ((m' :: members).map fun u => (.plain u.1, u.2)) ++
        .closeObject :: more))
    simp only [List.map_cons] at hrest hm
    simp only [List.map_cons, Value.memberTokens, List.cons_append, List.append_assoc,
      List.foldl_cons, State.step, hm]
    simpa [State.stepComplete] using hrest

/-- The first item of an array is built like any other value. -/
theorem foldl_step_wantItem {v : Value} (h : v.Proper) (items : List Value) (frames : List Frame)
    (more : List Token) :
    (Value.itemTokens (v :: items) ++ more).foldl State.step (.wantItem frames) =
      (Value.itemTokens (v :: items) ++ more).foldl State.step (.wantValue frames) := by
  have hfirst : ∃ rest, Value.itemTokens (v :: items) = v.toTokens ++ rest := by
    cases items with
    | nil => exact ⟨[], (List.append_nil _).symm⟩
    | cons w items => exact ⟨.comma :: Value.itemTokens (w :: items), rfl⟩
  obtain ⟨rest, hrest⟩ := hfirst
  rw [hrest]
  cases h <;> simp [Value.toTokens, Value.ofNat, Value.ofString, Value.ofList, Value.ofMembers,
    State.step, State.stepValue]

/-- The machine builds every proper value from its tokens. -/
theorem Value.Proper.builds {v : Value} (h : v.Proper) : v.Builds := by
  induction h with
  | null | bool _ | number _ | string _ => intro frames more; rfl
  | @array items hitems ih =>
    intro frames more
    cases items with
    | nil => rfl
    | cons v items =>
      have hbuild := foldl_step_itemTokens ih [] frames more
      rw [← foldl_step_wantItem (hitems v (by simp))] at hbuild
      simp only [ofList, toTokens, List.cons_append, List.append_assoc, List.foldl_cons,
        State.step, State.stepValue, List.nil_append]
      simpa [ofList] using hbuild
  | @object members hmembers ih =>
    intro frames more
    cases members with
    | nil => rfl
    | cons m members =>
      have hbuild := foldl_step_memberTokens ih [] frames more
      simp only [ofMembers, toTokens, List.cons_append, List.append_assoc, List.foldl_cons,
        State.step, State.stepValue, List.nil_append]
      simpa using hbuild

/-- A text with the tokens of a value is read as that value, and nothing follows it. -/
theorem ofChars_eq_of_tokens {text : List Char} {v : Value} (h : v.Proper)
    (htext : tokens text = v.toTokens) : Reading.ofChars text = ⟨v, false⟩ := by
  have hbuild := h.builds [] []
  rw [List.append_nil] at hbuild
  rw [Reading.ofChars, htext, State.start, hbuild]
  rfl

end JsonnetTree.Json
