import JsonnetTree.Command
import JsonnetTree.Proofs.Shape

/-!
# Loading what lowering writes

The document of a lowered tree describes that tree, so it can be loaded again as long as it keeps
the limit on its nesting. It need not keep it: lowering puts a conditional and an error around the
message of an assertion, and these take more levels of a document than the limit allows for a level
of a tree (`Tree.load_lowered_nestedAsserts`).
-/

namespace JsonnetTree

open Json

/-! ## The limit on the nesting -/

/-- Up to the largest count the limit is six levels of the document for each level of a tree and for
one more. -/
theorem nestingLimit_eq {maxDepth : Nat} (h : (maxDepth + 1) * 6 ≤ maxCount) :
    nestingLimit maxDepth = max 128 ((maxDepth + 1) * 6) := by
  rw [nestingLimit, Nat.min_eq_left h]

/-- The limits that commands take are far from the largest count. -/
theorem nestingLimit_of_le_maxDepthLimit {limit : Nat} (h : limit ≤ maxDepthLimit) :
    nestingLimit limit = max 128 ((limit + 1) * 6) := by
  refine nestingLimit_eq ?_
  rw [maxDepthLimit] at h
  rw [maxCount, UInt64.size]
  omega

/-! ## The document of a lowered tree -/

namespace Tree

/-- The text of the document of a lowered tree, with the line break after it. -/
def loweredText (lowered : Tree) : String :=
  String.ofList (lowered.pretty ++ ['\n'])

variable {limit maxDepth : Nat} {t lowered : Tree}

/-- The command for lowering writes the document of the lowered tree. -/
theorem run_lower_eq_ok_iff {text : String} :
    Command.run limit t .lower = .ok text ↔
      ∃ lowered, t.lower limit = .ok lowered ∧ text = loweredText lowered := by
  rw [Command.run]
  cases t.lower limit with
  | error e => simp [Except.mapError, bind, Except.bind]
  | ok lowered => simp [Except.mapError, bind, Except.bind, pure, Except.pure, loweredText, eq_comm]

/-- The document of a lowered tree is loaded as that tree if it keeps the limit, and is refused for
its nesting otherwise. -/
theorem load_loweredText (h : t.lower limit = .ok lowered) (maxDepth : Nat) (file : String) :
    Tree.load maxDepth file (loweredText lowered) =
      if (Tree.codec.write lowered).nesting ≤ nestingLimit maxDepth then .ok lowered
      else .error (.tooDeep file (Tree.codec.write lowered).nesting (nestingLimit maxDepth)) := by
  obtain ⟨hshape, hfits⟩ := fits_lower h
  have hcheck : lowered.checkShape = .ok () := by
    rw [checkShape_eq_ok_iff, hshape]
    exact hfits
  exact load_of_tokens hcheck (tokens_pretty_lineBreak lowered.codec_solid.proper) maxDepth file

/-- The text that the command for lowering writes is loaded with the same limit as exactly the
lowered tree if the document of that tree keeps the limit, and is refused for its nesting
otherwise. -/
theorem load_lowered {text : String} (h : Command.run maxDepth t .lower = .ok text)
    (file : String) :
    ∃ lowered, t.lower maxDepth = .ok lowered ∧
      Tree.load maxDepth file text =
        if (Tree.codec.write lowered).nesting ≤ nestingLimit maxDepth then .ok lowered
        else .error (.tooDeep file (Tree.codec.write lowered).nesting (nestingLimit maxDepth)) := by
  obtain ⟨lowered, hlower, rfl⟩ := run_lower_eq_ok_iff.mp h
  exact ⟨lowered, hlower, load_loweredText hlower maxDepth file⟩

/-- An object that holds an assertion is lowered, and what it is lowered to is loaded again. -/
theorem load_lowered_assert :
    let t : Tree := ⟨.raw, Build.object [Build.objectAssert (Build.boolean true) none], []⟩
    ∃ text lowered, Command.run 13 t .lower = .ok text ∧ t.lower 13 = .ok lowered ∧
      Tree.load 13 "a.json" text = .ok lowered := by
  intro t
  have hrun : Command.run 13 t .lower = .ok _ := rfl
  obtain ⟨lowered, hlower, hload⟩ := load_lowered hrun "a.json"
  cases hlower
  refine ⟨_, _, hrun, rfl, ?_⟩
  rw [hload, if_pos (by decide)]

end Tree

/-! ## Nested assertions -/

/-- An object whose only member is an assertion, with such an object as its message, and so on. -/
def nestedAsserts : Nat → Expr
  | 0 => Build.null
  | n + 1 => Build.object [Build.objectAssert (Build.boolean true) (some (nestedAsserts n))]

/-- What nested assertions are lowered to. -/
def loweredAsserts : Nat → Expr
  | 0 => Build.null
  | n + 1 =>
    Build.loweredObject [Build.conditional (Build.boolean true) (Build.boolean true)
      (some (Build.error (loweredAsserts n)))] [] []

/-- Nested assertions can be lowered. -/
theorem lower_nestedAsserts (n : Nat) : (nestedAsserts n).lower = .ok (loweredAsserts n) := by
  induction n with
  | zero => rfl
  | succ n ih =>
    have hchildren : (nestedAsserts (n + 1)).children = [Build.boolean true, nestedAsserts n] := rfl
    have htrue : (Build.boolean true).lower = .ok (Build.boolean true) := rfl
    rw [Expr.lower_eq, hchildren]
    simp only [List.mapM_cons, List.mapM_nil, htrue, ih]
    rfl

/-- Each nested assertion takes a level of the tree. -/
theorem beyond?_nestedAsserts {n room : Nat} (h : n < room) :
    (nestedAsserts n).beyond? room = none := by
  induction n generalizing room with
  | zero =>
    obtain ⟨room, rfl⟩ := Nat.exists_eq_succ_of_ne_zero (Nat.ne_of_gt h)
    rfl
  | succ n ih =>
    obtain ⟨room, rfl⟩ := Nat.exists_eq_add_of_lt h
    have hmessage : (nestedAsserts n).beyond? (n + 1 + room) = none := ih (by omega)
    have htrue : (Build.boolean true).beyond? (n + 1 + room) = none := by
      rw [show n + 1 + room = (n + room) + 1 by omega]
      rfl
    have hchildren : (nestedAsserts (n + 1)).children = [Build.boolean true, nestedAsserts n] := rfl
    rw [Expr.beyond?, hchildren]
    simp [hmessage, htrue]

/-- Nested assertions are objects as they are written. -/
theorem fits_nestedAsserts (n : Nat) : (nestedAsserts n).Fits .raw := by
  induction n with
  | zero => exact Expr.fits_ofForm rfl fun c hc => absurd hc List.not_mem_nil
  | succ n ih =>
    refine Expr.fits_ofForm rfl fun c hc => ?_
    have hc : c = Build.boolean true ∨ c = nestedAsserts n := by
      simpa [Form.children, Form.operands, Form.deferred, Member.allExprs, Member.isLocal,
        Member.exprs, Member.hasNameExpr, Build.objectAssert, Build.member,
        Parameters.fallbacks?] using hc
    rcases hc with rfl | rfl
    · exact Expr.fits_ofForm rfl fun c hc => absurd hc List.not_mem_nil
    · exact ih

/-! ## Levels of the document -/

section

variable {bound : Nat} {e : Codec Expr} {a b : Expr}

/-- An expression without fodder takes a level, and its location two more. -/
theorem nesting_write_ofForm (form : Form Expr) :
    ((Expr.codecUpTo (bound + 1)).write (.ofForm form)).nesting =
      max 2 (Form.write (Expr.codecUpTo bound) form).nesting + 1 := by
  have hlocation : (Location.codec.write .unset).nesting = 2 := rfl
  have hfodder : (Fodder.codec.write []).nesting = 1 := rfl
  simp only [Expr.codecUpTo, Expr.record, Record.codec, Expr.ofForm, Fields.location,
    Fields.fodder, Fields.withDefault, Fields.required, Fields.write, Form.codec, Value.ofMembers,
    List.map_cons, List.map_nil, Value.nesting, Value.nestingMembers, hlocation, hfodder]
  omega

/-- An assertion in an object is four levels below the form of the object. -/
theorem nesting_write_objectAssert :
    (Form.write e (.object ⟨[Build.objectAssert a (some b)], false, []⟩)).nesting =
      max 2 (max (e.write a).nesting (e.write b).nesting) + 4 := by
  have hlocation : (Location.codec.write .unset).nesting = 2 := rfl
  simp [Build.objectAssert, Build.member, Form.write, Variant.writeTagged, ObjectLiteral.record,
    Member.record, Record.codec, Fields.items, Fields.switch, Fields.fodder, Fields.location,
    Fields.withDefault, Fields.required, Fields.optional, Fields.write, Codec.option, Codec.list,
    Codec.boolean, Codec.word, Fodder.codec, Value.ofMembers, Value.ofList, Value.ofString,
    Value.nesting, Value.nestingMembers, Value.nestingItems, hlocation]
  omega

/-- An assertion of a lowered object is three levels below the form of the object. -/
theorem nesting_write_loweredAssert :
    (Form.write e (.loweredObject ⟨[a], [], []⟩)).nesting = (e.write a).nesting + 3 := by
  simp [Form.write, Variant.writeTagged, LoweredObject.record, Record.codec, Fields.items,
    Fields.withDefault, Fields.write, Codec.list, Value.ofMembers, Value.ofList, Value.nesting,
    Value.nestingMembers, Value.nestingItems]

/-- The parts of a conditional are two levels below its form. -/
theorem nesting_write_conditional :
    (Form.write e (.conditional ⟨a, [], a, [], some b⟩)).nesting =
      max 1 (max (e.write a).nesting (e.write b).nesting) + 2 := by
  simp [Form.write, Variant.writeTagged, Conditional.record, Record.codec, Fields.fodder,
    Fields.withDefault, Fields.required, Fields.optional, Fields.write, Codec.option, Codec.list,
    Fodder.codec, Value.ofMembers, Value.ofList, Value.nesting, Value.nestingMembers,
    Value.nestingItems]
  omega

/-- The message of an error is two levels below its form. -/
theorem nesting_write_error : (Form.write e (.error a)).nesting = (e.write a).nesting + 2 := by
  simp [Form.write, Variant.writeTagged, Form.singleRecord, Record.codec, Fields.required,
    Fields.write, Value.ofMembers, Value.nesting, Value.nestingMembers]

end

/-- Each nested assertion takes five levels of the document. -/
theorem nesting_write_nestedAsserts {n bound : Nat} (h : n < bound) :
    ((Expr.codecUpTo bound).write (nestedAsserts n)).nesting = 5 * n + 3 := by
  induction n generalizing bound with
  | zero =>
    obtain ⟨bound, rfl⟩ := Nat.exists_eq_succ_of_ne_zero (Nat.ne_of_gt h)
    rfl
  | succ n ih =>
    obtain ⟨bound, rfl⟩ := Nat.exists_eq_add_of_le' h
    have htrue : ((Expr.codecUpTo (bound + n + 1)).write (Build.boolean true)).nesting = 3 := rfl
    have hmessage : ((Expr.codecUpTo (bound + n + 1)).write (nestedAsserts n)).nesting =
        5 * n + 3 := ih (by omega)
    rw [nestedAsserts, Build.object, show bound + (n + 1).succ = bound + n + 1 + 1 by omega,
      nesting_write_ofForm, nesting_write_objectAssert, htrue, hmessage]
    omega

/-- Each of the assertions takes ten levels of the document after it is lowered. -/
theorem nesting_write_loweredAsserts {n bound : Nat} (h : 3 * n < bound) :
    ((Expr.codecUpTo bound).write (loweredAsserts n)).nesting = 10 * n + 3 := by
  induction n generalizing bound with
  | zero =>
    obtain ⟨bound, rfl⟩ := Nat.exists_eq_succ_of_ne_zero (Nat.ne_of_gt h)
    rfl
  | succ n ih =>
    obtain ⟨bound, rfl⟩ : ∃ k, bound = k + 1 + 1 + 1 := ⟨bound - 3, by omega⟩
    have htrue : ((Expr.codecUpTo (bound + 1)).write (Build.boolean true)).nesting = 3 := rfl
    have hmessage : ((Expr.codecUpTo bound).write (loweredAsserts n)).nesting = 10 * n + 3 :=
      ih (by omega)
    rw [loweredAsserts, Build.loweredObject, nesting_write_ofForm, nesting_write_loweredAssert,
      Build.conditional, nesting_write_ofForm, nesting_write_conditional, Build.error,
      nesting_write_ofForm, nesting_write_error, htrue, hmessage]
    omega

/-- Nested assertions have as many levels as there are, and one for the innermost message. -/
theorem lt_height_nestedAsserts (n : Nat) : n < (nestedAsserts n).height := by
  induction n with
  | zero =>
    rw [Expr.height_eq]
    exact Nat.succ_pos _
  | succ n ih =>
    have hpart : nestedAsserts n ∈ (nestedAsserts (n + 1)).form.parts := by
      simp [nestedAsserts, Build.object, Expr.ofForm, Form.parts, Build.objectAssert,
        Build.member, Member.parts]
    have hlt := Expr.height_lt_of_mem_parts hpart
    omega

/-- Each of the assertions has three levels after it is lowered. -/
theorem lt_height_loweredAsserts (n : Nat) : 3 * n < (loweredAsserts n).height := by
  induction n with
  | zero =>
    rw [Expr.height_eq]
    exact Nat.succ_pos _
  | succ n ih =>
    have hmessage : loweredAsserts n ∈ (Build.error (loweredAsserts n)).form.parts :=
      List.mem_singleton_self _
    have herror : Build.error (loweredAsserts n) ∈ (Build.conditional (Build.boolean true)
        (Build.boolean true) (some (Build.error (loweredAsserts n)))).form.parts := by
      simp [Build.conditional, Expr.ofForm, Form.parts]
    have hassert : Build.conditional (Build.boolean true) (Build.boolean true)
        (some (Build.error (loweredAsserts n))) ∈ (loweredAsserts (n + 1)).form.parts :=
      List.mem_singleton_self _
    have h₁ := Expr.height_lt_of_mem_parts hmessage
    have h₂ := Expr.height_lt_of_mem_parts herror
    have h₃ := Expr.height_lt_of_mem_parts hassert
    omega

namespace Tree

/-- A tree takes one level more than its root. -/
theorem nesting_write (shape : Shape) (root : Expr) :
    (Tree.codec.write ⟨shape, root, []⟩).nesting =
      max 1 ((Expr.codecUpTo root.height).write root).nesting + 1 := by
  simp [Tree.codec, Tree.record, Record.codec, Expr.codec, Fields.fodder, Fields.withDefault,
    Fields.required, Fields.write, Codec.word, Fodder.codec, Codec.list, Value.ofMembers,
    Value.ofList, Value.ofString, Value.nesting, Value.nestingMembers, Value.nestingItems]
  omega

/-- With every limit from thirteen to the greatest one that commands take, as many nested
assertions are loaded and lowered, but the text that is written for them is refused. -/
theorem load_lowered_refused {limit : Nat} (hlow : 13 ≤ limit) (hhigh : limit ≤ maxDepthLimit)
    (file : String) :
    let t : Tree := ⟨.raw, nestedAsserts limit, []⟩
    Tree.load limit file (String.ofList t.compact) = .ok t ∧
      ∃ text, Command.run limit t .lower = .ok text ∧
        Tree.load limit file text =
          .error (.tooDeep file (10 * limit + 4) (nestingLimit limit)) := by
  intro t
  have hlimit := nestingLimit_of_le_maxDepthLimit hhigh
  have hraw : (Tree.codec.write t).nesting = 5 * limit + 4 := by
    rw [nesting_write, nesting_write_nestedAsserts (lt_height_nestedAsserts limit)]
    omega
  have hlowered : (Tree.codec.write ⟨.lowered, loweredAsserts limit, []⟩).nesting =
      10 * limit + 4 := by
    rw [nesting_write, nesting_write_loweredAsserts (lt_height_loweredAsserts limit)]
    omega
  have hlower : t.lower limit = .ok ⟨.lowered, loweredAsserts limit, []⟩ := by
    have hdepth : t.root.checkDepth limit = .ok () := by
      rw [Expr.checkDepth, Expr.search_eq_beyond?, beyond?_nestedAsserts (Nat.lt_succ_self limit)]
    have hroot : t.root.lower = .ok (loweredAsserts limit) := lower_nestedAsserts limit
    rw [Tree.lower, if_neg (by simp [t]), hdepth, hroot]
    rfl
  constructor
  · have hshape : t.checkShape = .ok () := checkShape_eq_ok_iff.mpr (fits_nestedAsserts limit)
    rw [load_of_tokens hshape t.tokens_compact, if_pos (by omega)]
  · refine ⟨_, run_lower_eq_ok_iff.mpr ⟨_, hlower, rfl⟩, ?_⟩
    rw [load_loweredText hlower, if_neg (by omega), hlowered]

/-- Thirteen nested assertions are loaded and lowered with a limit of thirteen levels, but the text
that is written for them is refused with it. -/
theorem load_lowered_nestedAsserts :
    let t : Tree := ⟨.raw, nestedAsserts 13, []⟩
    Tree.load 13 "a.json" (String.ofList t.compact) = .ok t ∧
      ∃ text, Command.run 13 t .lower = .ok text ∧
        Tree.load 13 "a.json" text = .error (.tooDeep "a.json" 134 128) :=
  load_lowered_refused (by decide) (by decide) "a.json"

end Tree

end JsonnetTree
