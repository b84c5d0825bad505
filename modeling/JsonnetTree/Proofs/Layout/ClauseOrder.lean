import JsonnetTree.Proofs.Layout.Items

/-!
# The order of comprehension clauses

The clauses of a comprehension are held with the innermost one in front, each with those around it.
A loop collects them outward and turns the list round. The children of a comprehension and its text
are made by recursion into the outer clauses first. All three go through the clauses in one order,
that in which they are written (`Clauses.source_order`).
-/

namespace JsonnetTree

variable {α : Type}

namespace Clauses

/-- The clauses from the one on that is so many steps outward from the innermost. -/
def outward : Nat → Clauses α → Option (Clauses α)
  | 0, cs => some cs
  | n + 1, cs => cs.outer?.bind (outward n)

/-- Collecting clauses gives those that are met on the way outward. -/
theorem getElem?_inwardOut (cs : Clauses α) (n : Nat) :
    cs.inwardOut[n]? = (cs.outward n).map innermost := by
  induction cs generalizing n with
  | outermost clause => cases n <;> rfl
  | inside outer clause ih =>
    rw [inwardOut_inside]
    cases n with
    | zero => rfl
    | succ n => exact ih n

end Clauses

/-- What is written of a clause: `for` and its variable, `in` and its array, and each of its
conditions after an `if`. -/
def Clause.written (options : LayoutOptions) (c : Clause Expr) : List Piece :=
  fill c.forFodder true true ++ [.word "for"] ++ fill c.varFodder true true ++ [.word c.varName] ++
    fill c.inFodder true true ++ [.word "in"] ++ c.expr.pieces options true ++
    c.conditions.flatMap fun d =>
      fill d.ifFodder true true ++ [.word "if"] ++ d.expr.pieces options true

/-- A clause is printed as it is written, when its expressions come with their texts. -/
theorem Clause.pieces_map (options : LayoutOptions) (c : Clause Expr) :
    (c.map fun e => (e, e.pieces options)).pieces = c.written options := by
  simp [Clause.pieces, Clause.map, Condition.pieces, Condition.map, Clause.written,
    List.flatMap_map]

/-- The text of clauses is that of each clause, in the order of writing. -/
theorem Clauses.pieces_map_eq_flatMap (options : LayoutOptions) (cs : Clauses Expr) :
    (cs.map fun e => (e, e.pieces options)).pieces =
      cs.toList.flatMap (Clause.written options) := by
  rw [pieces_eq_flatMap, toList_map, List.flatMap_map]
  simp only [Clause.pieces_map]

/-- Comprehension clauses have one order. The list of clauses, read backwards, is what the way from
the innermost clause outward meets, so that the outermost comes first. The children that clauses
give an array or object comprehension are, clause by clause in this order, the array and then the
conditions. Between the body or the members and the closing bracket the clauses are written in the
same order, each with its `for` and `in` parts, its array and its conditions. -/
theorem Clauses.source_order (options : LayoutOptions) (cs : Clauses Expr) :
    (∀ n, cs.toList.reverse[n]? = (cs.outward n).map Clauses.innermost) ∧
      cs.exprs = cs.toList.flatMap (fun c => c.expr :: c.conditions.map (·.expr)) ∧
      (cs.map fun e => (e, e.pieces options)).pieces =
        cs.toList.flatMap (Clause.written options) ∧
      (∀ (location : Location) (fodder : Fodder) (a : ArrayComp Expr) (crowded : Bool),
        let e : Expr := ⟨location, fodder, .arrayComp { a with clauses := cs }⟩
        e.children = a.body :: cs.toList.flatMap (fun c => c.expr :: c.conditions.map (·.expr)) ∧
          e.pieces options crowded = fill fodder crowded true ++ [.mark "["] ++
            a.body.pieces options options.padArrays ++ fill a.commaFodder false false ++
            printTrailing a.trailingComma ++ cs.toList.flatMap (Clause.written options) ++
            fill a.closeFodder true options.padArrays ++ [.mark "]"]) ∧
      ∀ (location : Location) (fodder : Fodder) (o : ObjectComp Expr) (crowded : Bool),
        let e : Expr := ⟨location, fodder, .objectComp { o with clauses := cs }⟩
        e.children = Member.allExprs o.members ++
            cs.toList.flatMap (fun c => c.expr :: c.conditions.map (·.expr)) ∧
          e.pieces options crowded = fill fodder crowded true ++ [.mark "\x7b"] ++
            printList (Member.pieces options.padObjects) true
              (o.members.map (·.map fun part => (part, part.pieces options))) ++
            printTrailing o.trailingComma ++ cs.toList.flatMap (Clause.written options) ++
            fill o.closeFodder true options.padObjects ++ [.mark "\x7d"] := by
  have hexprs : cs.exprs = cs.toList.flatMap (fun c => c.expr :: c.conditions.map (·.expr)) :=
    cs.exprs_eq_flatMap
  have hpieces := cs.pieces_map_eq_flatMap options
  refine ⟨fun n => ?_, hexprs, hpieces, fun location fodder a crowded => ⟨?_, ?_⟩,
    fun location fodder o crowded => ⟨?_, ?_⟩⟩
  · rw [toList, List.reverse_reverse, getElem?_inwardOut]
  · rw [← hexprs]
    exact List.append_nil _
  · rw [Expr.pieces_eq, ← hpieces]
    simp [Form.leftmost?, Form.map, Form.pieces]
  · rw [← hexprs]
    exact List.append_nil _
  · rw [Expr.pieces_eq, ← hpieces]
    simp [Form.leftmost?, Form.map, Form.pieces]

end JsonnetTree
