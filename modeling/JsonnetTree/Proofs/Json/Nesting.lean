import JsonnetTree.Json.Brackets
import JsonnetTree.Proofs.Json.Reading

/-!
# Counting brackets measures nesting

The count of brackets looks at characters and knows nothing of JSON. On a text that can be read
it still gives the nesting of the value: the count and the scanner agree about which quotes open
and close strings, so that the brackets counted are those that the scanner makes tokens of, and
the machine that builds values opens and closes an array or an object with each of them.
-/

namespace JsonnetTree.Json

/-! ## Brackets among tokens -/

/-- How many brackets are open, and the greatest number that were open so far. -/
structure Reach where
  depth : Nat
  deepest : Nat

namespace Reach

/-- One more bracket is opened. -/
def opened (r : Reach) : Reach := ⟨r.depth + 1, max r.deepest (r.depth + 1)⟩

/-- A bracket is closed. -/
def closed (r : Reach) : Reach := ⟨r.depth - 1, r.deepest⟩

/-- Counts one more token. -/
def take (r : Reach) : Token → Reach
  | .openArray | .openObject => r.opened
  | .closeArray | .closeObject => r.closed
  | _ => r

end Reach

/-- What the count of a text has reached. -/
def BracketCount.reach (b : BracketCount) : Reach := ⟨b.depth, b.deepest⟩

/-- Whether a token says that the text breaks off. -/
def Token.isBroken : Token → Bool
  | .brokenWord _ | .cutNumber | .brokenText _ _ => true
  | _ => false

/-! ## The count and the scanner -/

/-- The characters that matter to the count outside strings. -/
def marks : List Char := ['"', '[', ']', '\x7b', '\x7d']

/-- The count is inside a string when the scanner is, and expects an escaped character when the
scanner does. What is left of a word has nothing to do with brackets. -/
def Mode.Agrees (b : BracketCount) : Mode → Prop
  | .quote q => b.quoted = true ∧ (b.escaped = true ↔ q.stage = .escape)
  | .stopped => False
  | .word rest token =>
    (b.quoted = false ∧ b.escaped = false) ∧ (∀ d ∈ rest, d ∉ marks) ∧ ∀ r : Reach, r.take token = r
  | _ => b.quoted = false ∧ b.escaped = false

/-- The scanner is inside an escape whose digits are no number. -/
def Mode.IsDoomed : Mode → Prop
  | .quote q => ∃ bytes, q.stage = .hex bytes none
  | _ => False

/-- A text cannot be read on after an escape whose digits are no number. The scanner notices it
only after four bytes, when the count may already take the string for closed. -/
theorem Mode.IsDoomed.exists_isBroken {mode : Mode} (h : mode.IsDoomed) (text : List Char) :
    ∃ t ∈ mode.run text, t.isBroken = true := by
  induction text generalizing mode with
  | nil =>
    cases mode with
    | quote q => exact ⟨q.cutOff, List.mem_singleton_self _, rfl⟩
    | _ => cases h
  | cons c rest ih =>
    cases mode with
    | quote q =>
      obtain ⟨bytes, hstage⟩ := h
      by_cases hbytes : bytes + c.utf8Size < 4
      · have hstep : q.step c = ([], .quote { q with stage := .hex (bytes + c.utf8Size) none }) := by
          simp [Quote.step, Quote.next, hstage, hbytes]
        simp only [Mode.run, Mode.step, hstep, List.nil_append]
        exact ih ⟨_, rfl⟩
      · have hstep : q.step c = ([.brokenText .malformed .malformed], .stopped) := by
          simp [Quote.step, Quote.next, hstage, hbytes]
        simp only [Mode.run, Mode.step, hstep]
        exact ⟨_, List.mem_append_left _ (List.mem_singleton_self _), rfl⟩
    | _ => cases h

/-- What one more character does to the count, when the scanner makes the given step with it. -/
def BracketCount.Follows (b : BracketCount) (c : Char) (step : ScanStep) : Prop :=
  (∀ t ∈ step.1, t.isBroken = false) →
    (step.2.Agrees (b.feed c) ∨ step.2.IsDoomed) ∧
      (b.feed c).reach = step.1.foldl Reach.take b.reach

namespace BracketCount

variable {b : BracketCount}

/-- Outside strings only brackets and quotes count. -/
theorem feed_of_not_mem_marks {c : Char} (hquoted : b.quoted = false) (hc : c ∉ marks) :
    b.feed c = b := by
  simp only [marks, List.mem_cons, List.not_mem_nil, or_false, not_or] at hc
  simp [feed, hquoted, hc]

/-- A character is no mark if a function has a result for it that it has for no mark. -/
theorem not_mem_marks_of_eq_some {α : Type} {f : Char → Option α} {a : α} {c : Char}
    (h : f c = some a) (hf : ∀ d ∈ marks, f d = none) : c ∉ marks := by
  intro hc
  rw [hf c hc] at h
  cases h

/-- In a string no bracket counts. -/
theorem reach_feed_of_quoted (hquoted : b.quoted = true) (c : Char) :
    (b.feed c).reach = b.reach := by
  simp only [feed, hquoted, if_true]
  split_ifs <;> rfl

/-- A character that is no bracket and no quote changes nothing outside strings, and so the count
follows a scanner that makes no bracket of it. -/
theorem follows_of_plain {c : Char} {step : ScanStep} (h : b.feed c = b) (hagrees : step.2.Agrees b)
    (hreach : step.1.foldl Reach.take b.reach = b.reach) : b.Follows c step := by
  intro _
  rw [h]
  exact ⟨.inl hagrees, hreach.symm⟩

/-- Between tokens the count goes on like the scanner. -/
theorem follows_start (hquoted : b.quoted = false) (hescaped : b.escaped = false) (c : Char) :
    b.Follows c (Mode.start c) := by
  have hagrees : b.quoted = false ∧ b.escaped = false := ⟨hquoted, hescaped⟩
  by_cases hblank : isBlank c = true
  · have hmarks : ∀ d ∈ marks, isBlank d = false := by simp [marks, isBlank]
    have hc : c ∉ marks := fun hc => by simp [hmarks c hc] at hblank
    rw [Mode.start, if_pos hblank]
    exact follows_of_plain (feed_of_not_mem_marks hquoted hc) hagrees rfl
  rw [Mode.start, if_neg hblank]
  by_cases hopen : c = '['
  · subst hopen
    simp [Follows, feed, hquoted, hescaped, Mode.Agrees, reach, Reach.take, Reach.opened]
  rw [if_neg hopen]
  by_cases hclose : c = ']'
  · subst hclose
    simp [Follows, feed, hquoted, hescaped, Mode.Agrees, reach, Reach.take, Reach.closed]
  rw [if_neg hclose]
  by_cases hopen' : c = '\x7b'
  · subst hopen'
    simp [Follows, feed, hquoted, hescaped, Mode.Agrees, reach, Reach.take, Reach.opened]
  rw [if_neg hopen']
  by_cases hclose' : c = '\x7d'
  · subst hclose'
    simp [Follows, feed, hquoted, hescaped, Mode.Agrees, reach, Reach.take, Reach.closed]
  rw [if_neg hclose']
  by_cases hquote : c = '"'
  · subst hquote
    simp [Follows, feed, hquoted, hescaped, Mode.Agrees, reach, Quote.start]
  have hfeed : b.feed c = b := feed_of_not_mem_marks hquoted (by
    simp [marks, hopen, hclose, hopen', hclose', hquote])
  by_cases hcolon : c = ':'
  · rw [if_pos hcolon]
    exact follows_of_plain hfeed hagrees rfl
  rw [if_neg hcolon]
  by_cases hcomma : c = ','
  · rw [if_pos hcomma]
    exact follows_of_plain hfeed hagrees rfl
  rw [if_neg hcomma, if_neg hquote]
  by_cases hn : c = 'n'
  · rw [if_pos hn]
    exact follows_of_plain hfeed ⟨hagrees, by simp [marks], fun _ => rfl⟩ rfl
  rw [if_neg hn]
  by_cases ht : c = 't'
  · rw [if_pos ht]
    exact follows_of_plain hfeed ⟨hagrees, by simp [marks], fun _ => rfl⟩ rfl
  rw [if_neg ht]
  by_cases hf : c = 'f'
  · rw [if_pos hf]
    exact follows_of_plain hfeed ⟨hagrees, by simp [marks], fun _ => rfl⟩ rfl
  rw [if_neg hf]
  by_cases hsign : c = '-'
  · rw [if_pos hsign]
    exact follows_of_plain hfeed hagrees rfl
  rw [if_neg hsign]
  cases digit? c with
  | some d => exact follows_of_plain hfeed hagrees rfl
  | none =>
    intro hsound
    simp [Token.isBroken] at hsound

end BracketCount

/-- A hexadecimal digit neither closes a string nor starts an escape. -/
theorem ne_of_hexDigit? {c : Char} {d : Nat} (h : hexDigit? c = some d) : c ≠ '"' ∧ c ≠ '\\' := by
  constructor
  · rintro rfl
    have hnone : hexDigit? '"' = none := by decide
    rw [hnone] at h
    cases h
  · rintro rfl
    have hnone : hexDigit? '\\' = none := by decide
    rw [hnone] at h
    cases h

/-- After an escaped unit the scanner is again inside the plain string. -/
theorem Quote.stage_pushUnit (q : Quote) (unit : Nat) : (q.pushUnit unit).stage = .plain := by
  cases hlead : q.lead with
  | some lead =>
    simp only [pushUnit, hlead]
    split <;> rfl
  | none =>
    simp only [pushUnit, hlead]
    split
    · rfl
    · split <;> rfl

namespace BracketCount

variable {b : BracketCount}

/-- In a plain part of a string only a quote and a backslash count. -/
theorem feed_of_quoted {c : Char} (hquoted : b.quoted = true) (hescaped : b.escaped = false)
    (hc : c ≠ '"' ∧ c ≠ '\\') : b.feed c = b := by
  simp [feed, hquoted, hescaped, hc]

/-- A string that goes on has the count inside it, unless it goes on in an escape that no digit can
complete. -/
theorem agrees_of_next {q q' : Quote} {c : Char} (h : (Mode.quote q).Agrees b)
    (hclose : ¬(q.stage = .plain ∧ c = '"')) (hnext : q.next c = some q') :
    (Mode.quote q').Agrees (b.feed c) ∨ (Mode.quote q').IsDoomed := by
  obtain ⟨hquoted, hescaped⟩ := h
  cases hstage : q.stage with
  | plain =>
    have hescaped : b.escaped = false := by simpa [hstage] using hescaped
    have hquote : c ≠ '"' := fun hc => hclose ⟨hstage, hc⟩
    simp only [Quote.next, hstage] at hnext
    by_cases hback : c = '\\'
    · rw [if_pos hback] at hnext
      cases hnext
      simp [Mode.Agrees, feed, hback, hquoted, hescaped]
    · rw [if_neg hback] at hnext
      by_cases hlow : c.toNat < 0x20
      · rw [if_pos hlow] at hnext
        cases hnext
      · rw [if_neg hlow] at hnext
        cases hnext
        rw [feed_of_quoted hquoted hescaped ⟨hquote, hback⟩]
        simp [Mode.Agrees, Quote.push, hquoted, hescaped]
  | escape =>
    have hescaped : b.escaped = true := hescaped.mpr hstage
    have hfeed : b.feed c = { b with escaped := false } := by
      simp [feed, hquoted, hescaped]
    have hplain (q₁ : Quote) (hq₁ : q₁.stage ≠ .escape) : (Mode.quote q₁).Agrees (b.feed c) := by
      rw [hfeed]
      simp [Mode.Agrees, hquoted, hq₁]
    simp only [Quote.next, hstage] at hnext
    by_cases hu : c = 'u'
    · rw [if_pos hu] at hnext
      cases hnext
      exact .inl (hplain _ (by simp))
    · rw [if_neg hu] at hnext
      obtain ⟨d, -, rfl⟩ := Option.map_eq_some_iff.mp hnext
      exact .inl (hplain _ (by simp [Quote.push]))
  | hex bytes value =>
    have hescaped : b.escaped = false := by simpa [hstage] using hescaped
    cases hvalue : (do return 16 * (← value) + (← hexDigit? c) : Option Nat) with
    | none =>
      simp only [Quote.next, hstage, hvalue] at hnext
      by_cases hbytes : bytes + c.utf8Size < 4
      · rw [if_pos hbytes] at hnext
        cases hnext
        exact .inr ⟨_, rfl⟩
      · rw [if_neg hbytes] at hnext
        cases hnext
    | some unit =>
      obtain ⟨n, -, hdigit⟩ := Option.bind_eq_some_iff.mp hvalue
      obtain ⟨d, hdigit, -⟩ := Option.bind_eq_some_iff.mp hdigit
      have hfeed := feed_of_quoted hquoted hescaped (ne_of_hexDigit? hdigit)
      rw [hfeed]
      simp only [Quote.next, hstage, hvalue] at hnext
      by_cases hbytes : bytes + c.utf8Size < 4
      · rw [if_pos hbytes] at hnext
        cases hnext
        simp [Mode.Agrees, hquoted, hescaped]
      · rw [if_neg hbytes] at hnext
        cases hnext
        simp [Mode.Agrees, hquoted, hescaped, Quote.stage_pushUnit]

/-- In a string the count goes on like the scanner. -/
theorem follows_quote {q : Quote} (h : (Mode.quote q).Agrees b) (c : Char) :
    b.Follows c (q.step c) := by
  intro hsound
  by_cases hclose : q.stage = .plain ∧ c = '"'
  · obtain ⟨hstage, rfl⟩ := hclose
    obtain ⟨hquoted, hescaped⟩ := h
    have hescaped : b.escaped = false := by simpa [hstage] using hescaped
    simp [Quote.step, hstage, feed, hquoted, hescaped, Mode.Agrees, reach, Reach.take]
  · rw [Quote.step, if_neg hclose] at hsound ⊢
    cases hnext : q.next c with
    | none => simp [hnext, Token.isBroken] at hsound
    | some q' => exact ⟨agrees_of_next h hclose hnext, reach_feed_of_quoted h.1 c⟩

/-- The count follows the scanner when a token that is no bracket ends before a character. -/
theorem follows_cons_start (hquoted : b.quoted = false) (hescaped : b.escaped = false) {token : Token}
    (htoken : ∀ r : Reach, r.take token = r) (c : Char) :
    b.Follows c (token :: (Mode.start c).1, (Mode.start c).2) := by
  intro hsound
  have hstart := follows_start hquoted hescaped c fun t ht => hsound t (List.mem_cons_of_mem _ ht)
  rw [List.foldl_cons, htoken]
  exact hstart

/-- In a number the count goes on like the scanner. -/
theorem follows_numeral {n : Numeral} (hquoted : b.quoted = false) (hescaped : b.escaped = false)
    (c : Char) : b.Follows c (n.step c) := by
  have hplain {n₁ : Numeral} (hc : c ∉ marks) : b.Follows c ([], .numeral n₁) :=
    follows_of_plain (feed_of_not_mem_marks hquoted hc) ⟨hquoted, hescaped⟩ rfl
  have hbroken : b.Follows c ([.brokenWord .malformed], .stopped) := fun hsound => by
    simp [Token.isBroken] at hsound
  rw [Numeral.step]
  cases hdigit : digit? c with
  | some d =>
    have hc := not_mem_marks_of_eq_some hdigit (by simp [marks, digit?])
    dsimp only
    cases n.digit d with
    | some n₁ => exact hplain hc
    | none => exact hbroken
  | none =>
    cases hother : n.other c with
    | some n₁ =>
      have hmarks : ∀ d ∈ marks, n.other d = none := by
        cases hstage : n.stage <;> simp [marks, Numeral.other, hstage]
      exact hplain (not_mem_marks_of_eq_some hother hmarks)
    | none =>
      cases hcomplete : n.complete with
      | true => exact follows_cons_start hquoted hescaped (fun _ => rfl) c
      | false => exact hbroken

/-- In a word the count goes on like the scanner. -/
theorem follows_word {rest : List Char} {token : Token} (h : (Mode.word rest token).Agrees b)
    (c : Char) : b.Follows c ((Mode.word rest token).step c) := by
  obtain ⟨houtside, hrest, htoken⟩ := h
  cases rest with
  | nil => exact follows_cons_start houtside.1 houtside.2 htoken c
  | cons d rest =>
    rw [Mode.step]
    by_cases hc : c = d
    · subst hc
      have hfeed := feed_of_not_mem_marks houtside.1 (hrest c (by simp))
      rw [if_pos rfl]
      cases rest with
      | nil => exact follows_of_plain hfeed houtside (htoken _)
      | cons d' rest =>
        exact follows_of_plain hfeed
          ⟨houtside, fun e he => hrest e (List.mem_cons_of_mem _ he), htoken⟩ rfl
    · rw [if_neg hc]
      intro hsound
      simp [Token.isBroken] at hsound

/-- The count goes on like the scanner with every character. -/
theorem follows_step {mode : Mode} (h : mode.Agrees b) (c : Char) : b.Follows c (mode.step c) := by
  cases mode with
  | between => exact follows_start h.1 h.2 c
  | word rest token => exact follows_word h c
  | numeral n => exact follows_numeral h.1 h.2 c
  | quote q => exact follows_quote h c
  | stopped => cases h

/-- What is left of a text when its end is reached is no bracket. -/
theorem foldl_take_finish {mode : Mode} (h : mode.Agrees b)
    (hsound : ∀ t ∈ mode.finish, t.isBroken = false) :
    mode.finish.foldl Reach.take b.reach = b.reach := by
  cases mode with
  | between => rfl
  | word rest token =>
    cases rest with
    | nil => exact h.2.2 _
    | cons d rest => rfl
  | numeral n =>
    rw [Mode.finish]
    split <;> rfl
  | quote q => rfl
  | stopped => cases h

/-- On a text that the scanner can read the count of characters is the count of tokens. -/
theorem reach_foldl_feed {mode : Mode} (h : mode.Agrees b) {text : List Char}
    (hsound : ∀ t ∈ mode.run text, t.isBroken = false) :
    (text.foldl feed b).reach = (mode.run text).foldl Reach.take b.reach := by
  induction text generalizing mode b with
  | nil => exact (foldl_take_finish h hsound).symm
  | cons c rest ih =>
    have hrun : mode.run (c :: rest) = (mode.step c).1 ++ (mode.step c).2.run rest := rfl
    rw [hrun] at hsound ⊢
    have hrest : ∀ t ∈ (mode.step c).2.run rest, t.isBroken = false := fun t ht =>
      hsound t (List.mem_append_right _ ht)
    obtain ⟨hagrees | hdoomed, hreach⟩ :=
      follows_step h c fun t ht => hsound t (List.mem_append_left _ ht)
    · rw [List.foldl_cons, ih hagrees hrest, hreach, List.foldl_append]
    · obtain ⟨t, ht, hbroken⟩ := hdoomed.exists_isBroken rest
      rw [hrest t ht] at hbroken
      cases hbroken

end BracketCount

/-! ## Tokens and values -/

/-- The deepest nesting of what has been read inside an open bracket. -/
def Frame.nesting : Frame → Nat
  | .array items => Value.nestingItems items
  | .object members _ => Value.nestingMembers members

/-- How deep the values reach that have been read inside open brackets. -/
def framesReach : List Frame → Nat
  | [] => 0
  | frame :: frames => max (framesReach frames) (frames.length + 1 + frame.nesting)

/-- What the brackets of the tokens have reached that brought the machine into a state. -/
def State.reach : State → Reach
  | .wantValue frames | .wantItem frames => ⟨frames.length, framesReach frames⟩
  | .wantKey members frames | .wantColon members _ frames =>
    ⟨frames.length + 1, max (framesReach frames) (frames.length + 1 + Value.nestingMembers members)⟩
  | .complete value frames =>
    ⟨frames.length, max (framesReach frames) (frames.length + value.nesting)⟩
  | .stopped _ => ⟨0, 0⟩

/-- The machine does not go on. -/
def State.IsStopped : State → Prop
  | .stopped _ => True
  | _ => False

namespace Value

/-- The nesting of items in a row is that of the first ones or of the others. -/
theorem nestingItems_append (items more : List Value) :
    nestingItems (items ++ more) = max (nestingItems items) (nestingItems more) := by
  induction items with
  | nil => simp [nestingItems]
  | cons v items ih => rw [List.cons_append, nestingItems, nestingItems, ih, Nat.max_assoc]

/-- The nesting of members in a row is that of the first ones or of the others. -/
theorem nestingMembers_append (members more : List (Text × Value)) :
    nestingMembers (members ++ more) = max (nestingMembers members) (nestingMembers more) := by
  induction members with
  | nil => simp [nestingMembers]
  | cons m members ih => rw [List.cons_append, nestingMembers, nestingMembers, ih, Nat.max_assoc]

/-- The order of the items of an array does not matter to their nesting. -/
theorem nestingItems_reverse (items : List Value) :
    nestingItems items.reverse = nestingItems items := by
  induction items with
  | nil => rfl
  | cons v items ih =>
    rw [List.reverse_cons, nestingItems_append, ih, nestingItems, nestingItems, nestingItems]
    omega

/-- The order of the members of an object does not matter to their nesting. -/
theorem nestingMembers_reverse (members : List (Text × Value)) :
    nestingMembers members.reverse = nestingMembers members := by
  induction members with
  | nil => rfl
  | cons m members ih =>
    rw [List.reverse_cons, nestingMembers_append, ih, nestingMembers, nestingMembers, nestingMembers]
    omega

end Value

/-- Open brackets have reached at least their own number. -/
theorem length_le_framesReach (frames : List Frame) : frames.length ≤ framesReach frames := by
  cases frames with
  | nil => exact Nat.le_refl 0
  | cons frame frames =>
    rw [framesReach, List.length_cons]
    omega

namespace State

variable {token : Token}

/-- A token where a value must come. -/
theorem reach_stepValue {frames : List Frame} (h : ¬(stepValue frames token).IsStopped) :
    (stepValue frames token).reach = (wantValue frames).reach.take token := by
  have hlength := length_le_framesReach frames
  cases token with
  | openArray | openObject =>
    simp [stepValue, reach, Reach.take, Reach.opened, framesReach, Frame.nesting,
      Value.nestingItems, Value.nestingMembers]
  | null | bool _ | number _ | text _ =>
    simp [stepValue, reach, Reach.take, Value.nesting, hlength]
  | _ => exact absurd trivial h

/-- A token that follows a complete value. -/
theorem reach_stepComplete {value : Value} {frames : List Frame}
    (h : ¬(stepComplete value frames token).IsStopped) :
    (stepComplete value frames token).reach = (complete value frames).reach.take token := by
  cases frames with
  | nil => exact absurd trivial h
  | cons frame frames =>
    cases frame with
    | array items =>
      cases token with
      | comma =>
        simp only [stepComplete, reach, Reach.take, framesReach, Frame.nesting, Value.nestingItems,
          List.length_cons, Reach.mk.injEq, true_and]
        omega
      | closeArray =>
        simp only [stepComplete, reach, Reach.take, Reach.closed, framesReach, Frame.nesting,
          Value.nesting, Value.nestingItems_reverse, Value.nestingItems, List.length_cons,
          Reach.mk.injEq]
        omega
      | _ => exact absurd trivial h
    | object members key =>
      cases token with
      | comma =>
        simp only [stepComplete, reach, Reach.take, framesReach, Frame.nesting,
          Value.nestingMembers, List.length_cons, Reach.mk.injEq, true_and]
        omega
      | closeObject =>
        simp only [stepComplete, reach, Reach.take, Reach.closed, framesReach, Frame.nesting,
          Value.nesting, Value.nestingMembers_reverse, Value.nestingMembers, List.length_cons,
          Reach.mk.injEq]
        omega
      | _ => exact absurd trivial h

/-- Where an array may end, a token other than its end must start a value. -/
theorem step_wantItem {frames : List Frame} (h : token ≠ .closeArray) :
    (wantItem frames).step token = stepValue frames token := by
  simp [step, h]

/-- A token where a value or the end of an array must come. -/
theorem reach_step_wantItem {frames : List Frame} (h : ¬((wantItem frames).step token).IsStopped) :
    ((wantItem frames).step token).reach = (wantItem frames).reach.take token := by
  by_cases htoken : token = .closeArray
  · subst htoken
    cases frames with
    | nil => exact absurd trivial h
    | cons frame frames =>
      cases frame with
      | array items =>
        simp only [step, reach, Reach.take, Reach.closed, framesReach, Frame.nesting,
          Value.nesting, Value.nestingItems_reverse, List.length_cons, Reach.mk.injEq]
        omega
      | object members key => exact absurd trivial h
  · rw [step_wantItem htoken] at h ⊢
    exact reach_stepValue h

/-- A token changes what the state has reached as it changes the count of brackets. -/
theorem reach_step {state : State} (h : ¬(state.step token).IsStopped) :
    (state.step token).reach = state.reach.take token := by
  cases state with
  | wantValue frames => exact reach_stepValue h
  | wantItem frames => exact reach_step_wantItem h
  | wantKey members frames =>
    cases token with
    | text t => rfl
    | closeObject =>
      cases members with
      | nil =>
        simp [step, reach, Reach.take, Reach.closed, Value.nesting, Value.nestingMembers]
      | cons m members => exact absurd trivial h
    | _ => exact absurd trivial h
  | wantColon members key frames =>
    cases token with
    | colon => rfl
    | _ => exact absurd trivial h
  | complete value frames => exact reach_stepComplete h
  | stopped value => exact absurd trivial h

/-- A machine that has stopped stays so. -/
theorem isStopped_foldl {state : State} (h : state.IsStopped) (ts : List Token) :
    (ts.foldl step state).IsStopped := by
  induction ts generalizing state with
  | nil => exact h
  | cons t ts ih =>
    cases state with
    | stopped value => exact ih trivial
    | _ => cases h

/-- The machine stops at a broken token. -/
theorem isStopped_step_of_isBroken {state : State} (h : token.isBroken = true) :
    (state.step token).IsStopped := by
  have hvalue (frames : List Frame) : (stepValue frames token).IsStopped := by
    cases token <;> first | exact trivial | cases h
  have hcomplete (value : Value) (frames : List Frame) :
      (stepComplete value frames token).IsStopped := by
    cases frames with
    | nil => exact trivial
    | cons frame frames => cases frame <;> cases token <;> first | exact trivial | cases h
  cases state with
  | wantValue frames => exact hvalue frames
  | wantItem frames =>
    have htoken : token ≠ .closeArray := by
      rintro rfl
      cases h
    rw [step_wantItem htoken]
    exact hvalue frames
  | wantKey members frames => cases members <;> cases token <;> first | exact trivial | cases h
  | wantColon members key frames => cases token <;> first | exact trivial | cases h
  | complete value frames => exact hcomplete value frames
  | stopped value => exact trivial

/-- If the machine does not stop, no token is broken, and the state has reached what the brackets
among the tokens have. -/
theorem reach_foldl {state : State} {ts : List Token} (h : ¬(ts.foldl step state).IsStopped) :
    (∀ t ∈ ts, t.isBroken = false) ∧ (ts.foldl step state).reach = ts.foldl Reach.take state.reach := by
  induction ts generalizing state with
  | nil => exact ⟨nofun, rfl⟩
  | cons t ts ih =>
    obtain ⟨hts, hreach⟩ := ih h
    have hstep : ¬(state.step t).IsStopped := fun hstopped => h (isStopped_foldl hstopped ts)
    have ht : t.isBroken = false := by
      rw [← Bool.not_eq_true]
      exact fun hbroken => hstep (isStopped_step_of_isBroken hbroken)
    refine ⟨List.forall_mem_cons.mpr ⟨ht, hts⟩, ?_⟩
    rw [List.foldl_cons, List.foldl_cons, hreach, reach_step hstep]

end State

/-- The brackets of a text are nested as deeply as the value that is read from it. -/
theorem bracketDepth_eq_nesting {text : List Char} {v : Value}
    (h : (tokens text).foldl State.step .start = .complete v []) :
    bracketDepth text = v.nesting := by
  have hgoes : ¬((tokens text).foldl State.step .start).IsStopped := by
    rw [h]
    exact id
  obtain ⟨hsound, hreach⟩ := State.reach_foldl hgoes
  rw [tokens_eq_run] at hsound
  have hagrees : Mode.between.Agrees ⟨false, false, 0, 0⟩ := ⟨rfl, rfl⟩
  have hcount := BracketCount.reach_foldl_feed hagrees hsound
  have hstart : BracketCount.reach ⟨false, false, 0, 0⟩ = State.start.reach := rfl
  rw [hstart, ← tokens_eq_run, ← hreach, h] at hcount
  have hdeepest := congrArg Reach.deepest hcount
  simpa [State.reach, framesReach, BracketCount.reach, bracketDepth] using hdeepest

/-- The brackets of a text with the tokens of a proper value are nested as deeply as the value. -/
theorem Value.Proper.bracketDepth_eq {text : List Char} {v : Value} (h : v.Proper)
    (htext : tokens text = v.toTokens) : bracketDepth text = v.nesting := by
  refine bracketDepth_eq_nesting ?_
  have hbuild := h.builds [] []
  rwa [List.append_nil, ← htext] at hbuild

end JsonnetTree.Json
