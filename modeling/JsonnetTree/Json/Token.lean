import JsonnetTree.Json.Number

/-!
# Tokens of a JSON text

The scanner reads a text character by character and never looks ahead: its state says
what the characters so far began. A text that cannot be read on ends in a token that says
how it breaks off, so every text has a list of tokens.
-/

namespace JsonnetTree.Json

/-- Why a text is not JSON. -/
inductive Fault where
  /-- It ends too early. -/
  | early
  /-- No continuation of it is JSON. -/
  | malformed
  deriving DecidableEq, Inhabited, Repr

/-- The content of a quoted string. -/
inductive Text where
  | plain (s : String)
  /-- Some escape is half of a surrogate pair and the other half is missing. -/
  | unpaired
  deriving DecidableEq, Inhabited, Repr

/-- The tokens of a text. -/
inductive Token where
  | openArray
  | closeArray
  | openObject
  | closeObject
  | colon
  | comma
  | null
  | bool (b : Bool)
  | number (n : Number)
  | text (t : Text)
  /-- No token starts here, or a word or number starts here and breaks off. -/
  | brokenWord (fault : Fault)
  /-- A number starts here, and the text ends within it. -/
  | cutNumber
  /-- A string starts here and breaks off: what is wrong for one who wants its content, and
  for one who passes over it and so does not mind unpaired surrogates. -/
  | brokenText (strict lax : Fault)
  deriving DecidableEq, Inhabited, Repr

/-- The blanks between tokens. -/
def isBlank (c : Char) : Bool :=
  c == ' ' || c == '\n' || c == '\t' || c == '\r'

/-! ## Numbers -/

/-- How much of a number has been read. -/
inductive NumeralStage where
  /-- A minus sign. -/
  | sign
  /-- A leading zero, which no digit may follow. -/
  | zero
  | whole
  /-- A point, which a digit must follow. -/
  | point
  | fraction
  /-- The letter that starts an exponent. -/
  | mark
  | exponentSign
  | exponent
  deriving DecidableEq, Inhabited, Repr

/-- A number being read: the number before the point, the digits after the point, last first,
and the exponent. -/
structure Numeral where
  stage : NumeralStage
  negative : Bool
  whole : Nat
  fraction : List Nat
  exponentNegative : Bool
  exponent : Nat
  deriving DecidableEq, Inhabited, Repr

/-- The value of a decimal digit. -/
def digit? (c : Char) : Option Nat :=
  if '0' ≤ c ∧ c ≤ '9' then some (c.toNat - '0'.toNat) else none

/-- A number that starts with a minus sign. -/
def Numeral.ofSign : Numeral := ⟨.sign, true, 0, [], false, 0⟩

/-- A number that goes on with its first digit. -/
def Numeral.first (n : Numeral) (d : Nat) : Numeral :=
  { n with stage := if d = 0 then .zero else .whole, whole := d }

/-- A number that starts with a digit. -/
def Numeral.ofDigit (d : Nat) : Numeral :=
  Numeral.first ⟨.sign, false, 0, [], false, 0⟩ d

/-- Whether a number may end where it is. -/
def Numeral.complete (n : Numeral) : Bool :=
  match n.stage with
  | .zero | .whole | .fraction | .exponent => true
  | .sign | .point | .mark | .exponentSign => false

/-- The number that has been read. -/
def Numeral.number (n : Numeral) : Number :=
  let exponent : Int := if n.exponentNegative then -n.exponent else n.exponent
  { negative := n.negative
    whole := n.whole
    fraction := n.fraction.reverse
    exponent := if n.stage = .exponent then some exponent else none }

/-- The number after a digit, if a digit may come. -/
def Numeral.digit (n : Numeral) (d : Nat) : Option Numeral :=
  match n.stage with
  | .sign => some (n.first d)
  | .zero => none
  | .whole => some { n with whole := 10 * n.whole + d }
  | .point | .fraction => some { n with stage := .fraction, fraction := d :: n.fraction }
  | .mark | .exponentSign | .exponent =>
    some { n with stage := .exponent, exponent := 10 * n.exponent + d }

/-- The number after a character other than a digit, if that character belongs to it. -/
def Numeral.other (n : Numeral) (c : Char) : Option Numeral :=
  match n.stage with
  | .zero | .whole =>
    if c = '.' then some { n with stage := .point }
    else if c = 'e' ∨ c = 'E' then some { n with stage := .mark }
    else none
  | .fraction => if c = 'e' ∨ c = 'E' then some { n with stage := .mark } else none
  | .mark =>
    if c = '+' then some { n with stage := .exponentSign }
    else if c = '-' then some { n with stage := .exponentSign, exponentNegative := true }
    else none
  | .sign | .point | .exponentSign | .exponent => none

/-! ## Strings -/

/-- Where the scanner is inside a string. -/
inductive QuoteStage where
  | plain
  /-- After a backslash. -/
  | escape
  /-- After `\u`: how many bytes have been seen, and their value while they are hex digits. -/
  | hex (bytes : Nat) (value : Option Nat)
  deriving DecidableEq, Inhabited, Repr

/-- A string being read: its characters, last first, whether an unpaired surrogate has been
met, and the first half of a pair whose second half must follow. -/
structure Quote where
  stage : QuoteStage
  chars : List Char
  unpaired : Bool
  lead : Option Nat
  deriving DecidableEq, Inhabited, Repr

/-- The start of a string. -/
def Quote.start : Quote := ⟨.plain, [], false, none⟩

/-- The content of a string that ends here. -/
def Quote.content (q : Quote) : Text :=
  if q.unpaired || q.lead.isSome then .unpaired else .plain (String.ofList q.chars.reverse)

/-- The token of a string that the text breaks off with its end. -/
def Quote.cutOff (q : Quote) : Token :=
  .brokenText (if q.unpaired then .malformed else .early) .early

/-- Adds a character that is no surrogate. A half pair before it stays unpaired. -/
def Quote.push (q : Quote) (c : Char) : Quote :=
  { stage := .plain, chars := c :: q.chars, unpaired := q.unpaired || q.lead.isSome, lead := none }

/-- The value of a hexadecimal digit. -/
def hexDigit? (c : Char) : Option Nat :=
  if '0' ≤ c ∧ c ≤ '9' then some (c.toNat - '0'.toNat)
  else if 'a' ≤ c ∧ c ≤ 'f' then some (c.toNat - 'a'.toNat + 10)
  else if 'A' ≤ c ∧ c ≤ 'F' then some (c.toNat - 'A'.toNat + 10)
  else none

/-- Adds an escaped 16-bit unit. -/
def Quote.pushUnit (q : Quote) (unit : Nat) : Quote :=
  let isLead := 0xD800 ≤ unit ∧ unit ≤ 0xDBFF
  let isTrail := 0xDC00 ≤ unit ∧ unit ≤ 0xDFFF
  match q.lead with
  | some lead =>
    if isTrail then
      { q with
        stage := .plain
        chars := Char.ofNat ((lead - 0xD800) * 0x400 + (unit - 0xDC00) + 0x10000) :: q.chars
        lead := none }
    else { q with stage := .plain, unpaired := true, lead := none }
  | none =>
    if isLead then { q with stage := .plain, lead := some unit }
    else if isTrail then { q with stage := .plain, unpaired := true }
    else q.push (Char.ofNat unit)

/-- The character that a one-letter escape stands for. -/
def escaped? (c : Char) : Option Char :=
  if c = '"' ∨ c = '\\' ∨ c = '/' then some c
  else if c = 'b' then some '\x08'
  else if c = 'f' then some '\x0c'
  else if c = 'n' then some '\n'
  else if c = 'r' then some '\r'
  else if c = 't' then some '\t'
  else none

/-- The string after a character other than a closing quote, if it may come. The four
places after `\u` are counted in bytes, so nothing is decided before four bytes are there. -/
def Quote.next (q : Quote) (c : Char) : Option Quote :=
  match q.stage with
  | .plain =>
    if c = '\\' then some { q with stage := .escape }
    else if c.toNat < 0x20 then none
    else some (q.push c)
  | .escape =>
    if c = 'u' then some { q with stage := .hex 0 (some 0) }
    else (escaped? c).map q.push
  | .hex bytes value =>
    let bytes := bytes + c.utf8Size
    let value := do return 16 * (← value) + (← hexDigit? c)
    if bytes < 4 then some { q with stage := .hex bytes value }
    else value.map q.pushUnit

/-! ## The scanner -/

/-- What the scanner is in the middle of. -/
inductive Mode where
  /-- Between tokens. -/
  | between
  /-- In a word, with the letters that must still come. -/
  | word (rest : List Char) (token : Token)
  | numeral (n : Numeral)
  | quote (q : Quote)
  /-- After a fault, where nothing more is read. -/
  | stopped
  deriving Inhabited

/-- The tokens that end with a character, and the mode after it. -/
abbrev ScanStep := List Token × Mode

/-- The step on the first character of a token, or on a blank. -/
def Mode.start (c : Char) : ScanStep :=
  if isBlank c then ([], .between)
  else if c = '[' then ([.openArray], .between)
  else if c = ']' then ([.closeArray], .between)
  else if c = '\x7b' then ([.openObject], .between)
  else if c = '\x7d' then ([.closeObject], .between)
  else if c = ':' then ([.colon], .between)
  else if c = ',' then ([.comma], .between)
  else if c = '"' then ([], .quote .start)
  else if c = 'n' then ([], .word ['u', 'l', 'l'] .null)
  else if c = 't' then ([], .word ['r', 'u', 'e'] (.bool true))
  else if c = 'f' then ([], .word ['a', 'l', 's', 'e'] (.bool false))
  else if c = '-' then ([], .numeral .ofSign)
  else match digit? c with
    | some d => ([], .numeral (.ofDigit d))
    | none => ([.brokenWord .malformed], .stopped)

/-- The step in a number. A character that does not belong to it ends it. -/
def Numeral.step (n : Numeral) (c : Char) : ScanStep :=
  match digit? c with
  | some d =>
    match n.digit d with
    | some n => ([], .numeral n)
    | none => ([.brokenWord .malformed], .stopped)
  | none =>
    match n.other c with
    | some n => ([], .numeral n)
    | none =>
      if n.complete then
        let (tokens, mode) := Mode.start c
        (.number n.number :: tokens, mode)
      else ([.brokenWord .malformed], .stopped)

/-- The step in a string. -/
def Quote.step (q : Quote) (c : Char) : ScanStep :=
  if q.stage = .plain ∧ c = '"' then ([.text q.content], .between)
  else match q.next c with
    | some q => ([], .quote q)
    | none => ([.brokenText .malformed .malformed], .stopped)

/-- The step on any character. -/
def Mode.step : Mode → Char → ScanStep
  | .between, c => Mode.start c
  | .word [] token, c =>
    let (tokens, mode) := Mode.start c
    (token :: tokens, mode)
  | .word (e :: rest) token, c =>
    if c = e then
      if rest.isEmpty then ([token], .between) else ([], .word rest token)
    else ([.brokenWord .malformed], .stopped)
  | .numeral n, c => n.step c
  | .quote q, c => q.step c
  | .stopped, _ => ([], .stopped)

/-- The tokens that the end of the text makes of a mode. -/
def Mode.finish : Mode → List Token
  | .between | .stopped => []
  | .word [] token => [token]
  | .word (_ :: _) _ => [.brokenWord .early]
  | .numeral n => [if n.complete then .number n.number else .cutNumber]
  | .quote q => [q.cutOff]

/-- A scanner in the middle of a text: the tokens so far, last first. -/
structure Scanner where
  tokens : List Token
  mode : Mode

/-- The scanner before any text. -/
def Scanner.start : Scanner := ⟨[], .between⟩

/-- The scanner after one more character. -/
def Scanner.feed (s : Scanner) (c : Char) : Scanner :=
  let (tokens, mode) := s.mode.step c
  ⟨tokens.reverse ++ s.tokens, mode⟩

/-- The tokens of the text that a scanner has been fed. -/
def Scanner.finish (s : Scanner) : List Token :=
  s.tokens.reverse ++ s.mode.finish

/-- The tokens of a text. -/
def tokens (text : List Char) : List Token :=
  (text.foldl Scanner.feed .start).finish

end JsonnetTree.Json
