import JsonnetTree.Expansion
import JsonnetTree.Graph
import JsonnetTree.Report

/-!
# Commands

A command turns a tree into a text. All commands take a limit on the depth of the tree.
-/

namespace JsonnetTree

/-- How symbols are listed. -/
inductive SymbolFormat where
  /-- As a report. -/
  | json
  /-- As a line for each symbol. -/
  | text
  deriving DecidableEq, Inhabited, Repr

/-- What can be done with a tree. -/
inductive Command where
  /-- Draws the tree as a graph. -/
  | graph
  /-- Lists the names that can be referred to. -/
  | symbols (format : SymbolFormat)
  /-- Prints the source text. -/
  | print (options : LayoutOptions)
  /-- Prints the source text with the local bindings in place of their names. -/
  | expand (options : LayoutOptions)
  /-- Writes the document of the lowered tree. -/
  | lower
  /-- Lists the imports. -/
  | imports
  deriving DecidableEq, Inhabited, Repr

namespace Tree

/-- The tree itself if it is lowered already, and otherwise the tree lowered. -/
def lowered (limit : Nat) (t : Tree) : Except LowerError Tree :=
  match t.shape with
  | .lowered => .ok t
  | .raw => t.lower limit

/-- The symbols of a tree. A raw tree is lowered first, so that the names of its fields
are known. -/
def symbols (limit : Nat) (t : Tree) : Except Failure (List Symbol) := do
  let t ← (t.lowered limit).mapError LowerError.failure
  (t.root.extractSymbols limit).mapError WalkError.failure

end Tree

/-- The text of a list of symbols. -/
def SymbolFormat.render (symbols : List Symbol) : SymbolFormat → String
  | .json => String.ofList (symbolReport symbols).pretty
  | .text => String.join (symbols.map Symbol.line)

/-- Runs a command on a tree that may have `limit` levels below its root. -/
def Command.run (limit : Nat) (t : Tree) : Command → Except Failure String
  | .graph => do
    let edges ← (t.root.graph limit).mapError WalkError.failure
    return renderGraph edges
  | .symbols format => do
    let symbols ← t.symbols limit
    return format.render symbols
  | .print options => (t.print options limit).mapError PrintError.failure
  | .expand options => do
    let expanded ← (t.expand limit).mapError WalkError.failure
    (expanded.print options limit).mapError PrintError.failure
  | .lower => do
    let lowered ← (t.lower limit).mapError LowerError.failure
    return String.ofList (lowered.pretty ++ ['\n'])
  | .imports => do
    let imports ← (t.root.imports limit).mapError WalkError.failure
    return String.ofList (importReport imports).pretty

/-! ## Resources -/

/-- The greatest depth limit that a command accepts. -/
def maxDepthLimit : Nat := 10000

/-- How many bytes of stack the work on a tree may take: a base, and a share for each level
that a tree within the limit can have. -/
def stackBytes (maxDepth : Nat) : Nat :=
  min (depthBound maxDepth * (32 * 1024) + 8 * 1024 * 1024) maxCount

end JsonnetTree
