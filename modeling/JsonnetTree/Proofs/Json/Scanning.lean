import JsonnetTree.Json.Printer
import Mathlib.Tactic.IntervalCases
import Mathlib.Tactic.SplitIfs

/-!
# Scanning written values

The scanner finds in the text of a value exactly the tokens of that value, whether it is
written without blanks or with a line for each item. A number is the only token whose end is
not seen before the next character, so every statement asks that what follows may follow a
number.
-/

namespace JsonnetTree.Json

/-- The tokens that a scanner in the given mode makes of the rest of a text. -/
def Mode.run : Mode → List Char → List Token
  | mode, [] => mode.finish
  | mode, c :: rest => (mode.step c).1 ++ Mode.run (mode.step c).2 rest

/-- Feeding a scanner adds the tokens of the text to those it has. -/
theorem Scanner.finish_foldl_feed (s : Scanner) (text : List Char) :
    (text.foldl Scanner.feed s).finish = s.tokens.reverse ++ s.mode.run text := by
  induction text generalizing s with
  | nil => rfl
  | cons c rest ih =>
    rw [List.foldl_cons, ih]
    simp [Scanner.feed, Mode.run]

/-- The tokens of a text are what a scanner makes of it that starts between tokens. -/
theorem tokens_eq_run (text : List Char) : tokens text = Mode.between.run text := by
  rw [tokens, Scanner.finish_foldl_feed]
  rfl

/-! ## Strings -/

/-- The state of the scanner inside a string whose characters so far are `chars`, last first. -/
def Quote.after (chars : List Char) : Quote := ⟨.plain, chars, false, none⟩

/-- A hexadecimal digit has the value that it is written for. -/
theorem hexDigit?_hexDigit : ∀ n < 16, hexDigit? (hexDigit n) = some n := by
  decide

/-- A hexadecimal digit takes one byte. -/
theorem utf8Size_hexDigit : ∀ n < 16, (hexDigit n).utf8Size = 1 := by
  decide

/-- After the four digits of an escape the scanner has the character that they stand for. -/
theorem run_quote_hex (chars rest : List Char) (n : Nat) (hn : n < 32) :
    (Mode.quote ⟨.hex 0 (some 0), chars, false, none⟩).run
        ('0' :: '0' :: hexDigit (n / 16) :: hexDigit (n % 16) :: rest) =
      (Mode.quote (.after (Char.ofNat n :: chars))).run rest := by
  have hzero : hexDigit? '0' = some 0 := by decide
  have hzeroSize : '0'.utf8Size = 1 := by decide
  have hhigh := hexDigit?_hexDigit (n / 16) (by omega)
  have hlow := hexDigit?_hexDigit (n % 16) (by omega)
  have hhighSize := utf8Size_hexDigit (n / 16) (by omega)
  have hlowSize := utf8Size_hexDigit (n % 16) (by omega)
  have hvalue : 16 * (n / 16) + n % 16 = n := by omega
  have hlead : ¬(0xD800 ≤ n ∧ n ≤ 0xDBFF) := by omega
  have htrail : ¬(0xDC00 ≤ n ∧ n ≤ 0xDFFF) := by omega
  simp [Mode.run, Mode.step, Quote.step, Quote.next, hzero, hzeroSize, hhigh, hlow, hhighSize,
    hlowSize, hvalue, Quote.pushUnit, hlead, htrail, Quote.push, Quote.after]

/-- The scanner reads a character that is written with a one-letter escape. -/
theorem run_quote_letter {letter c : Char} (chars rest : List Char) (hu : letter ≠ 'u')
    (hc : escaped? letter = some c) :
    (Mode.quote (.after chars)).run ('\\' :: letter :: rest) =
      (Mode.quote (.after (c :: chars))).run rest := by
  simp [Mode.run, Mode.step, Quote.step, Quote.next, Quote.after, hu, hc, Quote.push]

/-- The scanner reads a written character as that character. -/
theorem run_quote_escape (chars rest : List Char) (c : Char) :
    (Mode.quote (.after chars)).run (escape c ++ rest) =
      (Mode.quote (.after (c :: chars))).run rest := by
  unfold escape
  split_ifs with hquote hback hb hf hn hr ht hlow
  · subst hquote; exact run_quote_letter chars rest (by decide) (by decide)
  · subst hback; exact run_quote_letter chars rest (by decide) (by decide)
  · subst hb; exact run_quote_letter chars rest (by decide) (by decide)
  · subst hf; exact run_quote_letter chars rest (by decide) (by decide)
  · subst hn; exact run_quote_letter chars rest (by decide) (by decide)
  · subst hr; exact run_quote_letter chars rest (by decide) (by decide)
  · subst ht; exact run_quote_letter chars rest (by decide) (by decide)
  · have h := run_quote_hex chars rest c.toNat hlow
    rw [Char.ofNat_toNat] at h
    rw [← h]
    simp [Mode.run, Mode.step, Quote.step, Quote.next, Quote.after]
  · simp [Mode.run, Mode.step, Quote.step, Quote.next, Quote.after, hquote, hback, hlow, Quote.push]

/-- The scanner reads written characters as those characters. -/
theorem run_quote_flatMap_escape (chars rest : List Char) (cs : List Char) :
    (Mode.quote (.after chars)).run (cs.flatMap escape ++ rest) =
      (Mode.quote (.after (cs.reverse ++ chars))).run rest := by
  induction cs generalizing chars with
  | nil => rfl
  | cons c cs ih =>
    rw [List.flatMap_cons, List.append_assoc, run_quote_escape, ih, List.reverse_cons,
      List.append_assoc]
    rfl

/-- The scanner reads a quoted string as its content. -/
theorem run_quote (s : String) (rest : List Char) :
    Mode.between.run (quote s ++ rest) = .text (.plain s) :: Mode.between.run rest := by
  have hopen : Mode.between.run (quote s ++ rest) =
      (Mode.quote (.after [])).run (s.toList.flatMap escape ++ '"' :: rest) := by
    simp [quote, Mode.run, Mode.step, Mode.start, isBlank, Quote.start, Quote.after]
  rw [hopen, run_quote_flatMap_escape]
  simp [Mode.run, Mode.step, Quote.step, Quote.after, Quote.content]

/-! ## Numbers -/

/-- Whether a number ends before this character, for the characters that can follow a value. -/
def endsNumber (c : Char) : Bool :=
  isBlank c || c == ',' || c == ']' || c == '\x7d'

/-- A text that may follow a number: it is empty or starts with a character that ends one. -/
def Delimited (rest : List Char) : Prop := ∀ c ∈ rest.head?, endsNumber c

/-- A plain number that has been read up to its last digit. -/
def Numeral.ofWhole (n : Nat) : Numeral :=
  ⟨if n = 0 then .zero else .whole, false, n, [], false, 0⟩

/-- A decimal digit has the value that it is written for. -/
theorem digit?_digitChar : ∀ d < 10, digit? (Nat.digitChar d) = some d := by
  decide

/-- The first digit of a number starts a numeral. -/
theorem start_digitChar : ∀ d < 10,
    Mode.start (Nat.digitChar d) = ([], .numeral (.ofWhole d)) := by
  intro d hd
  interval_cases d <;> rfl

/-- A character that ends a number neither is a digit nor goes on a number in another way. -/
theorem not_numeral_of_endsNumber {c : Char} (h : endsNumber c = true) :
    digit? c = none ∧ ∀ n, (Numeral.ofWhole n).other c = none := by
  have hc : c = ' ' ∨ c = '\n' ∨ c = '\t' ∨ c = '\r' ∨ c = ',' ∨ c = ']' ∨ c = '\x7d' := by
    simpa [endsNumber, isBlank, or_assoc] using h
  have hmark : c ≠ '.' ∧ c ≠ 'e' ∧ c ≠ 'E' := by
    rcases hc with rfl | rfl | rfl | rfl | rfl | rfl | rfl <;> decide
  constructor
  · rcases hc with rfl | rfl | rfl | rfl | rfl | rfl | rfl <;> rfl
  · intro n
    by_cases hn : n = 0 <;> simp [Numeral.ofWhole, Numeral.other, hn, hmark]

/-- The scanner reads the digits of a number as that number. -/
theorem run_toDigits (n : Nat) (rest : List Char) :
    Mode.between.run (Nat.toDigits 10 n ++ rest) = (Mode.numeral (.ofWhole n)).run rest := by
  induction n using Nat.strongRecOn generalizing rest with
  | _ n ih =>
    by_cases hn : n < 10
    · rw [Nat.toDigits_of_lt_base hn]
      simp [Mode.run, Mode.step, start_digitChar n hn]
    · have hdigit := digit?_digitChar (n % 10) (by omega)
      have hne : n / 10 ≠ 0 := by omega
      have hvalue : 10 * (n / 10) + n % 10 = n := by omega
      have hpos : n ≠ 0 := by omega
      rw [Nat.toDigits_of_base_le (by omega) (by omega), List.append_assoc, ih (n / 10) (by omega)]
      simp [Mode.run, Mode.step, Numeral.step, Numeral.ofWhole, Numeral.digit, hdigit, hne, hvalue,
        hpos]

/-- A number ends where a text starts that may follow it. -/
theorem run_numeral_of_delimited (n : Nat) {rest : List Char} (h : Delimited rest) :
    (Mode.numeral (.ofWhole n)).run rest = .number (.ofNat n) :: Mode.between.run rest := by
  have hcomplete : (Numeral.ofWhole n).complete = true := by
    by_cases hn : n = 0 <;> simp [Numeral.ofWhole, Numeral.complete, hn]
  have hnumber : (Numeral.ofWhole n).number = .ofNat n := by
    by_cases hn : n = 0 <;> simp [Numeral.ofWhole, Numeral.number, Number.ofNat, hn]
  cases rest with
  | nil => simp [Mode.run, Mode.finish, hcomplete, hnumber]
  | cons c rest =>
    obtain ⟨hdigit, hother⟩ := not_numeral_of_endsNumber (h c rfl)
    simp [Mode.run, Mode.step, Numeral.step, hdigit, hother, hcomplete, hnumber]

/-! ## Marks, words and blanks -/

/-- An opening bracket is a token. -/
@[simp] theorem run_openArray (rest : List Char) :
    Mode.between.run ('[' :: rest) = .openArray :: Mode.between.run rest := rfl

/-- A closing bracket is a token. -/
@[simp] theorem run_closeArray (rest : List Char) :
    Mode.between.run (']' :: rest) = .closeArray :: Mode.between.run rest := rfl

/-- An opening brace is a token. -/
@[simp] theorem run_openObject (rest : List Char) :
    Mode.between.run ('\x7b' :: rest) = .openObject :: Mode.between.run rest := rfl

/-- A closing brace is a token. -/
@[simp] theorem run_closeObject (rest : List Char) :
    Mode.between.run ('\x7d' :: rest) = .closeObject :: Mode.between.run rest := rfl

/-- A colon is a token. -/
@[simp] theorem run_colon (rest : List Char) :
    Mode.between.run (':' :: rest) = .colon :: Mode.between.run rest := rfl

/-- A comma is a token. -/
@[simp] theorem run_comma (rest : List Char) :
    Mode.between.run (',' :: rest) = .comma :: Mode.between.run rest := rfl

/-- A space is no token. -/
@[simp] theorem run_space (rest : List Char) :
    Mode.between.run (' ' :: rest) = Mode.between.run rest := rfl

/-- A line break is no token. -/
@[simp] theorem run_lineBreak (rest : List Char) :
    Mode.between.run ('\n' :: rest) = Mode.between.run rest := rfl

/-- The start of a line holds no token. -/
@[simp] theorem run_newline (level : Nat) (rest : List Char) :
    Mode.between.run (Value.newline level ++ rest) = Mode.between.run rest := by
  have hspaces (count : Nat) :
      Mode.between.run (List.replicate count ' ' ++ rest) = Mode.between.run rest := by
    induction count with
    | zero => rfl
    | succ count ih => rw [List.replicate_succ, List.cons_append, run_space, ih]
  rw [Value.newline, List.cons_append, run_lineBreak, hspaces]

/-! ## Values -/

namespace Value

mutual

/-- The tokens of a value. What is missing has none. -/
def toTokens : Value → List Token
  | .null => [.null]
  | .bool b => [.bool b]
  | .number n => [.number n]
  | .string t => [.text t]
  | .array items _ => .openArray :: itemTokens items ++ [.closeArray]
  | .object members _ => .openObject :: memberTokens members ++ [.closeObject]
  | .missing _ | .uncoloned _ => []

/-- The tokens of the items of an array, with commas between them. -/
def itemTokens : List Value → List Token
  | [] => []
  | [v] => toTokens v
  | v :: more => toTokens v ++ .comma :: itemTokens more

/-- The tokens of the members of an object, with commas between them. -/
def memberTokens : List (Text × Value) → List Token
  | [] => []
  | [(key, v)] => .text key :: .colon :: toTokens v
  | (key, v) :: more => .text key :: .colon :: toTokens v ++ .comma :: memberTokens more

end

/-- A value that has a text of its own: nothing is missing from it, its strings have a content,
and its numbers are natural numbers. -/
inductive Proper : Value → Prop
  | null : Proper .null
  | bool (b : Bool) : Proper (.bool b)
  | number (n : Nat) : Proper (.ofNat n)
  | string (s : String) : Proper (.ofString s)
  | array {items : List Value} : (∀ v ∈ items, Proper v) → Proper (.ofList items)
  | object {members : List (String × Value)} :
      (∀ m ∈ members, Proper m.2) → Proper (.ofMembers members)

/-- A value is scanned as its tokens wherever it stands in a text, when `write` puts it in front
of what follows. -/
def Scans (write : List Char → Value → List Char) (v : Value) : Prop :=
  ∀ rest, Delimited rest →
    Mode.between.run (write rest v) = v.toTokens ++ Mode.between.run rest

/-- A comma ends a number. -/
theorem delimited_comma (rest : List Char) : Delimited (',' :: rest) := by
  simp [Delimited, endsNumber]

/-- A closing bracket ends a number. -/
theorem delimited_closeArray (rest : List Char) : Delimited (']' :: rest) := by
  simp [Delimited, endsNumber]

/-- A closing brace ends a number. -/
theorem delimited_closeObject (rest : List Char) : Delimited ('\x7d' :: rest) := by
  simp [Delimited, endsNumber]

/-- The start of a line ends a number. -/
theorem delimited_newline (level : Nat) (rest : List Char) :
    Delimited (newline level ++ rest) := by
  simp [Delimited, endsNumber, newline, isBlank]

/-- Values that are written in the same way in both layouts are scanned as their tokens. -/
theorem scans_of_atom {write : List Char → Value → List Char} {v : Value} {chars : List Char}
    (hwrite : ∀ rest, write rest v = chars ++ rest)
    (hrun : ∀ rest, Delimited rest →
      Mode.between.run (chars ++ rest) = v.toTokens ++ Mode.between.run rest) :
    Scans write v := by
  intro rest hrest
  rw [hwrite, hrun rest hrest]

/-- The digits of a natural number are scanned as that number. -/
theorem run_ofNat (n : Nat) {rest : List Char} (hrest : Delimited rest) :
    Mode.between.run ((Number.ofNat n).chars ++ rest) =
      .number (.ofNat n) :: Mode.between.run rest := by
  have hchars : (Number.ofNat n).chars = Nat.toDigits 10 n := by simp [Number.chars, Number.ofNat]
  rw [hchars, run_toDigits, run_numeral_of_delimited n hrest]

/-- Items without blanks are scanned as their tokens. -/
theorem run_compactItems {items : List Value} (h : ∀ v ∈ items, Scans compactOnto v)
    {rest : List Char} (hrest : Delimited rest) :
    Mode.between.run (compactItems rest items) = itemTokens items ++ Mode.between.run rest := by
  induction items with
  | nil => rfl
  | cons v more ih =>
    cases more with
    | nil => exact h v (by simp) rest hrest
    | cons w more =>
      have hv := h v (by simp) _ (delimited_comma (compactItems rest (w :: more)))
      have hmore := ih (fun u hu => h u (by simp [hu]))
      simp only [compactItems, itemTokens, hv, run_comma, hmore, List.append_assoc,
        List.cons_append]

/-- Members without blanks are scanned as their tokens. -/
theorem run_compactMembers {members : List (String × Value)}
    (h : ∀ m ∈ members, Scans compactOnto m.2) {rest : List Char} (hrest : Delimited rest) :
    Mode.between.run (compactMembers rest (members.map fun m => (.plain m.1, m.2))) =
      memberTokens (members.map fun m => (.plain m.1, m.2)) ++ Mode.between.run rest := by
  induction members with
  | nil => rfl
  | cons m more ih =>
    cases more with
    | nil =>
      have hm := h m (by simp) rest hrest
      simp only [List.map_cons, List.map_nil, compactMembers, memberTokens, Text.chars, run_quote,
        run_colon, hm, List.cons_append]
    | cons m' more =>
      have hm := h m (by simp) _ (delimited_comma (compactMembers rest
        ((m' :: more).map fun m => (.plain m.1, m.2))))
      have hmore := ih (fun u hu => h u (by simp [hu]))
      simp only [List.map_cons] at hm hmore
      simp only [List.map_cons, compactMembers, memberTokens, Text.chars, run_quote, run_colon, hm,
        run_comma, hmore, List.append_assoc, List.cons_append]

/-- A value without blanks is scanned as its tokens. -/
theorem Proper.scans_compactOnto {v : Value} (h : v.Proper) : Scans compactOnto v := by
  induction h with
  | null => exact scans_of_atom (fun _ => rfl) (fun _ _ => rfl)
  | bool b => cases b <;> exact scans_of_atom (fun _ => rfl) (fun _ _ => rfl)
  | number n => exact scans_of_atom (fun _ => rfl) (fun _ hrest => run_ofNat n hrest)
  | string s => exact scans_of_atom (fun _ => rfl) (fun rest _ => run_quote s rest)
  | array _ ih =>
    intro rest hrest
    simp only [ofList, compactOnto, toTokens, run_openArray,
      run_compactItems ih (delimited_closeArray rest), run_closeArray, List.cons_append,
      List.append_assoc, List.nil_append]
  | object _ ih =>
    intro rest hrest
    simp only [ofMembers, compactOnto, toTokens, run_openObject,
      run_compactMembers ih (delimited_closeObject rest), run_closeObject, List.cons_append,
      List.append_assoc, List.nil_append]

/-- Items with a line for each are scanned as their tokens. -/
theorem run_prettyItems {level : Nat} {items : List Value}
    (h : ∀ v ∈ items, Scans (prettyOnto · level) v) {rest : List Char} (hrest : Delimited rest) :
    Mode.between.run (prettyItems rest level items) =
      itemTokens items ++ Mode.between.run rest := by
  induction items with
  | nil => rfl
  | cons v more ih =>
    cases more with
    | nil =>
      have hv := h v (by simp) rest hrest
      simp only [prettyItems, itemTokens, run_newline, hv]
    | cons w more =>
      have hv := h v (by simp) _ (delimited_comma (prettyItems rest level (w :: more)))
      have hmore := ih (fun u hu => h u (by simp [hu]))
      simp only [prettyItems, itemTokens, run_newline, hv, run_comma, hmore, List.append_assoc,
        List.cons_append]

/-- Members with a line for each are scanned as their tokens. -/
theorem run_prettyMembers {level : Nat} {members : List (String × Value)}
    (h : ∀ m ∈ members, Scans (prettyOnto · level) m.2) {rest : List Char}
    (hrest : Delimited rest) :
    Mode.between.run (prettyMembers rest level (members.map fun m => (.plain m.1, m.2))) =
      memberTokens (members.map fun m => (.plain m.1, m.2)) ++ Mode.between.run rest := by
  induction members with
  | nil => rfl
  | cons m more ih =>
    cases more with
    | nil =>
      have hm := h m (by simp) rest hrest
      simp only [List.map_cons, List.map_nil, prettyMembers, memberTokens, Text.chars,
        List.append_assoc, run_newline, run_quote, run_colon, run_space, hm, List.cons_append]
    | cons m' more =>
      have hm := h m (by simp) _ (delimited_comma (prettyMembers rest level
        ((m' :: more).map fun m => (.plain m.1, m.2))))
      have hmore := ih (fun u hu => h u (by simp [hu]))
      simp only [List.map_cons] at hm hmore
      simp only [List.map_cons, prettyMembers, memberTokens, Text.chars, List.append_assoc,
        run_newline, run_quote, run_colon, run_space, hm, run_comma, hmore, List.cons_append]

/-- A value with a line for each item and member is scanned as its tokens. -/
theorem Proper.scans_prettyOnto {v : Value} (h : v.Proper) (level : Nat) :
    Scans (prettyOnto · level) v := by
  induction h generalizing level with
  | null => exact scans_of_atom (fun _ => rfl) (fun _ _ => rfl)
  | bool b => cases b <;> exact scans_of_atom (fun _ => rfl) (fun _ _ => rfl)
  | number n => exact scans_of_atom (fun _ => rfl) (fun _ hrest => run_ofNat n hrest)
  | string s => exact scans_of_atom (fun _ => rfl) (fun rest _ => run_quote s rest)
  | @array items _ ih =>
    intro rest hrest
    cases items with
    | nil => rfl
    | cons v more =>
      have hitems := run_prettyItems (fun u hu => ih u hu (level + 1))
        (delimited_newline level (']' :: rest))
      simp only [ofList, prettyOnto, toTokens, run_openArray, hitems, run_newline, run_closeArray,
        List.cons_append, List.append_assoc, List.nil_append]
  | @object members _ ih =>
    intro rest hrest
    cases members with
    | nil => rfl
    | cons m more =>
      have hmembers := run_prettyMembers (fun u hu => ih u hu (level + 1))
        (delimited_newline level ('\x7d' :: rest))
      simp only [List.map_cons] at hmembers
      simp only [ofMembers, List.map_cons, prettyOnto, toTokens, run_openObject, hmembers,
        run_newline, run_closeObject, List.cons_append, List.append_assoc, List.nil_append]

end Value

/-- The tokens of a value that is written without blanks. -/
theorem tokens_compact {v : Value} (h : v.Proper) : tokens v.compact = v.toTokens := by
  rw [tokens_eq_run, Value.compact, h.scans_compactOnto [] (by simp [Delimited])]
  exact List.append_nil _

/-- The tokens of a value that is written with a line for each item and member. -/
theorem tokens_pretty {v : Value} (h : v.Proper) : tokens v.pretty = v.toTokens := by
  rw [tokens_eq_run, Value.pretty, h.scans_prettyOnto 0 [] (by simp [Delimited])]
  exact List.append_nil _

/-- A line break after a value is no token. -/
theorem tokens_pretty_lineBreak {v : Value} (h : v.Proper) :
    tokens (v.pretty ++ ['\n']) = v.toTokens := by
  have honto : v.pretty ++ ['\n'] = v.prettyOnto ['\n'] 0 :=
    (Value.prettyOnto_append [] ['\n'] 0 v).symm
  rw [tokens_eq_run, honto, h.scans_prettyOnto 0 ['\n'] (by simp [Delimited, endsNumber, isBlank])]
  exact List.append_nil _

end JsonnetTree.Json
