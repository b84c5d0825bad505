/-!
# Pieces of text

A tree is printed as a list of pieces. A piece knows whether it is a token, a comment or
blank, which the characters of the text no longer tell. Some pieces cannot be printed, and
printing stops at the first of them.
-/

namespace JsonnetTree

/-- Why printing stops half way. -/
inductive Halt where
  /-- A local expression binds no name. -/
  | noBinds
  /-- A run of spaces or line breaks is longer than any text. -/
  | overlong
  deriving DecidableEq, Inhabited, Repr

/-- The message for printing that stops half way. -/
def Halt.message : Halt → String
  | .noBinds => "INTERNAL ERROR: local with no binds"
  | .overlong => "capacity overflow"

/-- No text takes more bytes than this. -/
def maxTextBytes : Nat := 9223372036854775807

/-- A piece of printed text. -/
inductive Piece where
  /-- An identifier, a keyword or a number. -/
  | word (text : String)
  /-- A bracket, an operator or another mark. -/
  | mark (text : String)
  /-- A string literal. -/
  | literal (text : String)
  | comment (text : String)
  | spaces (count : Nat)
  | newlines (count : Nat)
  /-- The place where a local expression should bind a name and binds none. Nothing can be
  printed from here on. -/
  | noBinds
  deriving DecidableEq, Inhabited, Repr

namespace Piece

/-- The characters of a piece. -/
def chars : Piece → List Char
  | .word text | .mark text | .literal text | .comment text => text.toList
  | .spaces count => List.replicate count ' '
  | .newlines count => List.replicate count '\n'
  | .noBinds => []

/-- Why a piece cannot be printed, if it cannot. -/
def halt? : Piece → Option Halt
  | .noBinds => some .noBinds
  | .spaces count | .newlines count => if maxTextBytes < count then some .overlong else none
  | .word _ | .mark _ | .literal _ | .comment _ => none

/-- Why a list of pieces cannot be printed to its end, if it cannot: its first piece that cannot
be printed decides. -/
def halted? (ps : List Piece) : Option Halt :=
  ps.findSome? halt?

/-- Whether a list of pieces cannot be printed to its end. -/
def isBroken (ps : List Piece) : Bool :=
  (halted? ps).isSome

/-- The text of a list of pieces, as far as it can be printed. -/
def render (ps : List Piece) : String :=
  String.ofList ((ps.takeWhile (·.halt?.isNone)).flatMap chars)

end Piece

end JsonnetTree
