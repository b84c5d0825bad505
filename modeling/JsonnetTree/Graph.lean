import JsonnetTree.Numbering

/-!
# Graphs

A tree is drawn as a graph with a vertex for each expression and an edge from each parent to
its children. A field of a lowered object is drawn through its name: there is an edge from
the object to the name, and one from the name to the body.
-/

namespace JsonnetTree

/-- What a label adds to the name of a form: an operator, a literal or a name. -/
def Form.detail? : Form Expr → Option String
  | .binary b => some b.op.symbol
  | .unary op _ => some op.symbol
  | .string s => some s.value
  | .number text => some text
  | .boolean value => some (if value then "true" else "false")
  | .var name => some name
  | .index i => i.id
  | _ => none

/-- The label of an expression at a location; without a number it has a question mark. -/
def Expr.label (e : Expr) (id : Option Nat) (location : Location) : String :=
  let number := match id with
    | some id => toString id
    | none => "?"
  let detail := match e.form.detail? with
    | some detail => " " ++ detail
    | none => ""
  "[" ++ location.render ++ "] #" ++ number ++ " " ++ e.form.name ++ detail

/-- A vertex as it appears at the end of an edge. -/
structure Vertex where
  id : Nat
  label : String
  deriving DecidableEq, Inhabited, Repr

/-- An edge of the graph. -/
structure Edge where
  source : Vertex
  target : Vertex
  deriving DecidableEq, Inhabited, Repr

namespace Numbered

/-- The vertex of an expression, labelled with the given location. -/
def vertexAt (n : Numbered) (location : Location) : Vertex :=
  ⟨n.id, n.expr.label (some n.id) location⟩

/-- The vertex of an expression, labelled with its own location. -/
def vertex (n : Numbered) : Vertex :=
  n.vertexAt n.expr.location

/-- The edges of the fields of a lowered object. A name that was made up has no location of
its own, so it is labelled with that of its field. -/
def fieldEdges (source : Vertex) (d : LoweredField Expr) (name body : Numbered) : List Edge :=
  let via := name.vertexAt d.location
  [⟨source, via⟩, ⟨via, body.vertex⟩]

/-- The edges from an expression to its children, or through them. -/
def edgesHere (n : Numbered) : List Edge :=
  match n.expr.form with
  | .loweredObject o =>
    let count := o.fields.length
    let names := n.children.take count
    let bodies := (n.children.drop count).take count
    let others := n.children.drop (2 * count)
    (o.fields.zip (names.zip bodies)).flatMap
      (fun (d, name, body) => fieldEdges n.vertex d name body) ++
      others.map fun child => ⟨n.vertex, child.vertex⟩
  | _ => n.children.map fun child => ⟨n.vertex, child.vertex⟩

mutual

/-- The edges of an expression and of all below it, those of the children first. -/
def edges : Numbered → List Edge
  | .mk id expr children => edgesAll children ++ (Numbered.mk id expr children).edgesHere

/-- The edges of several expressions and of all below them. -/
def edgesAll : List Numbered → List Edge
  | [] => []
  | n :: rest => n.edges ++ edgesAll rest

end

end Numbered

/-- A label between quotes: a quote inside it is written with a backslash. -/
def quoteLabel (label : String) : List Char :=
  '"' :: label.toList.flatMap (fun c => if c = '"' then ['\\', '"'] else [c]) ++ ['"']

/-- The line of an edge. -/
def Edge.line (e : Edge) : List Char :=
  [' ', ' '] ++ quoteLabel e.source.label ++ ['-', '>'] ++ quoteLabel e.target.label ++ ['\n']

/-- The text of a graph. -/
def renderGraph (edges : List Edge) : String :=
  "digraph \x7b\n" ++ String.ofList (edges.flatMap Edge.line) ++ "\x7d\n"

/-- The edges of the graph of a tree that is no deeper than `limit`. -/
def Expr.graph (limit : Nat) (e : Expr) : Except WalkError (List Edge) := do
  return (← e.numbered limit).edges

end JsonnetTree
