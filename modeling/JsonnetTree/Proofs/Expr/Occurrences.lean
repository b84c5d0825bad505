import JsonnetTree.Proofs.Expr.Reach
import Mathlib.Data.List.Nodup

/-!
# Places in an expression

The same expression can stand at several places below another one. A place is told by the numbers
of the children on the way to it, and `Expr.at?` follows such a path. `Expr.occurrences` lists all
places with the expressions that stand there, parents before children: every path that leads
somewhere is listed, and none is listed twice.
-/

namespace JsonnetTree

/-- An expression at a place below another one. -/
structure Occurrence where
  path : List Nat
  expr : Expr

/-- The occurrence as it is seen from further up, from where a path leads to the expression above
it. -/
def Occurrence.under (path : List Nat) (o : Occurrence) : Occurrence :=
  ⟨path ++ o.path, o.expr⟩

namespace Expr

/-- The expression at the end of a path, if the path leads somewhere. -/
def at? (e : Expr) : List Nat → Option Expr
  | [] => some e
  | i :: rest => e.children[i]?.bind fun c => c.at? rest

/-- All occurrences of expressions in an expression, parents before children. -/
def occurrences : Expr → List Occurrence :=
  fold fun e below => ⟨[], e⟩ :: below.zipIdx.flatMap fun b => b.1.map (·.under [b.2])

/-- All occurrences of expressions in an expression, children before parents. -/
def postOccurrences : Expr → List Occurrence :=
  fold fun e below => (below.zipIdx.flatMap fun b => b.1.map (·.under [b.2])) ++ [⟨[], e⟩]

variable {e a : Expr} {path : List Nat}

/-- The empty path leads to the expression itself. -/
@[simp] theorem at?_nil (e : Expr) : e.at? [] = some e := rfl

/-- A path goes to a child first. -/
theorem at?_cons_eq_some_iff {i : Nat} :
    e.at? (i :: path) = some a ↔ ∃ c, e.children[i]? = some c ∧ c.at? path = some a :=
  Option.bind_eq_some_iff

/-- A path can be followed in two stretches. -/
theorem at?_append (e : Expr) (path rest : List Nat) :
    e.at? (path ++ rest) = (e.at? path).bind (·.at? rest) := by
  induction path generalizing e with
  | nil => rfl
  | cons i path ih =>
    rw [List.cons_append, at?, at?]
    cases e.children[i]? with
    | none => rfl
    | some c => exact ih c

/-- An expression comes first, then what is below its children, child by child. -/
theorem occurrences_eq (e : Expr) :
    e.occurrences =
      ⟨[], e⟩ :: e.children.zipIdx.flatMap fun c => c.1.occurrences.map (·.under [c.2]) := by
  rw [occurrences, fold_eq, List.zipIdx_map, List.flatMap_map]
  rfl

/-- What is below the children comes first, child by child, and then the expression. -/
theorem postOccurrences_eq (e : Expr) :
    e.postOccurrences =
      (e.children.zipIdx.flatMap fun c => c.1.postOccurrences.map (·.under [c.2])) ++
        [⟨[], e⟩] := by
  rw [postOccurrences, fold_eq, List.zipIdx_map, List.flatMap_map]
  rfl

/-- A child with its number is a child. -/
theorem mem_children_of_mem_zipIdx {c : Expr × Nat} (h : c ∈ e.children.zipIdx) :
    c.1 ∈ e.children :=
  List.mem_of_getElem? (List.mem_zipIdx_iff_getElem?.mp h)

/-- An occurrence is listed if and only if its path leads to its expression. -/
theorem mem_occurrences_iff {o : Occurrence} :
    o ∈ e.occurrences ↔ e.at? o.path = some o.expr := by
  obtain ⟨path, a⟩ := o
  induction e using induct_children generalizing path with
  | h e ih =>
    rw [occurrences_eq, List.mem_cons, List.mem_flatMap]
    cases path with
    | nil => simp [Occurrence.under, eq_comm]
    | cons i rest =>
      simp only [Occurrence.mk.injEq, reduceCtorEq, false_and, false_or, at?_cons_eq_some_iff,
        List.mem_map, Occurrence.under]
      constructor
      · rintro ⟨⟨c, j⟩, hc, o, ho, hpath, rfl⟩
        obtain ⟨rfl, rfl⟩ := List.cons.inj hpath
        exact ⟨c, List.mem_zipIdx_iff_getElem?.mp hc,
          (ih c (mem_children_of_mem_zipIdx hc) o.path).mp ho⟩
      · rintro ⟨c, hc, ha⟩
        exact ⟨(c, i), List.mem_zipIdx_iff_getElem?.mpr hc, ⟨rest, a⟩,
          (ih c (List.mem_of_getElem? hc) rest).mpr ha, rfl, rfl⟩

/-- No two children have the same number. -/
theorem pairwise_zipIdx_children (e : Expr) :
    e.children.zipIdx.Pairwise fun c d => c.2 ≠ d.2 := by
  rw [← List.pairwise_map (R := fun i j => i ≠ j), List.zipIdx_map_snd]
  exact List.nodup_range'

/-- No path is listed twice. -/
theorem nodup_paths (e : Expr) : (e.occurrences.map (·.path)).Nodup := by
  induction e using induct_children with
  | h e ih =>
    rw [occurrences_eq, List.map_cons, List.map_flatMap, List.nodup_cons, List.nodup_flatMap]
    refine ⟨by simp [Occurrence.under], fun c hc => ?_, ?_⟩
    · have hpath : (c.1.occurrences.map (·.under [c.2])).map (·.path) =
          (c.1.occurrences.map (·.path)).map (c.2 :: ·) := by
        simp [Occurrence.under, Function.comp_def]
      rw [hpath]
      exact (ih c.1 (mem_children_of_mem_zipIdx hc)).map List.cons_injective
    · -- Paths below different children differ in their first number.
      refine e.pairwise_zipIdx_children.imp fun {c d} hne => ?_
      simp only [Function.onFun, List.disjoint_left, List.mem_map, Occurrence.under]
      rintro _ ⟨_, ⟨o, -, rfl⟩, rfl⟩ ⟨_, ⟨o', -, rfl⟩, heq⟩
      exact hne (List.cons.inj heq).1.symm

/-- Without their places, the occurrences are the expressions that can be reached, in order. -/
theorem map_expr_occurrences (e : Expr) : e.occurrences.map (·.expr) = e.preorder := by
  induction e using induct_children with
  | h e ih =>
    rw [occurrences_eq, preorder_eq, List.map_cons, List.map_flatMap]
    congr 1
    have hchild : ∀ c ∈ e.children.zipIdx,
        (c.1.occurrences.map (·.under [c.2])).map (·.expr) = c.1.preorder := by
      intro c hc
      rw [List.map_map]
      exact ih c.1 (mem_children_of_mem_zipIdx hc)
    rw [List.flatMap_congr hchild, ← List.flatMap_map (f := Prod.fst), List.zipIdx_map_fst]

end Expr

end JsonnetTree
