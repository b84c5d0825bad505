import JsonnetTree.Depth
import JsonnetTree.Proofs.Expr.Occurrences
import Mathlib.Data.List.Lex
import Mathlib.Data.List.Perm.Basic

/-!
# What a search with a stack finds

A search with a stack looks at the places of an expression in the order of `Expr.backOccurrences`:
parents come before children, and children from the last to the first. What it finds is the first
of these with the property (`Expr.search_eq_find?`). In terms of paths that is the order of
`BackBefore`, so a search finds the expression at the earliest place with the property
(`Expr.search_eq_some_iff`). In this order nothing comes before all that is above it, so the first
expression below some depth is just one level below it, and the search for it is a recursion over
the levels (`Expr.search_eq_beyond?`).
-/

namespace JsonnetTree

/-- A path comes before another one if it leads to something above, or if it goes to a later child
where the two part. -/
def BackBefore (path path' : List Nat) : Prop :=
  List.Lex (· > ·) path path'

/-- Of two different places each cannot come before the other. -/
theorem BackBefore.asymm {path path' : List Nat} (h : BackBefore path path') :
    ¬ BackBefore path' path :=
  Std.Asymm.asymm (r := List.Lex (· > ·)) path path' h

namespace Expr

/-- All occurrences of expressions in an expression, parents before children, and children from the
last to the first. -/
def backOccurrences : Expr → List Occurrence :=
  fold fun e below => ⟨[], e⟩ :: below.zipIdx.reverse.flatMap fun b => b.1.map (·.under [b.2])

/-- An expression comes first, then what is below its children, from the last child to the
first. -/
theorem backOccurrences_eq (e : Expr) :
    e.backOccurrences =
      ⟨[], e⟩ :: e.children.zipIdx.reverse.flatMap fun c =>
        c.1.backOccurrences.map (·.under [c.2]) := by
  rw [backOccurrences, fold_eq, List.zipIdx_map, ← List.map_reverse, List.flatMap_map]
  rfl

/-- The occurrences are the same in both orders. -/
theorem backOccurrences_perm (e : Expr) : e.backOccurrences.Perm e.occurrences := by
  induction e using induct_children with
  | h e ih =>
    rw [backOccurrences_eq, occurrences_eq]
    refine .cons _ ((List.Perm.flatMap_right _ (List.reverse_perm _)).trans ?_)
    exact List.Perm.flatMap_left _ fun c hc => (ih c.1 (mem_children_of_mem_zipIdx hc)).map _

/-! ## The order in which a stack is emptied -/

/-- What a search has still to look at, in order and with the depths, when this is on the stack. -/
def pending (stack : List (Expr × Nat)) : List (Expr × Nat) :=
  stack.flatMap fun item => item.1.backOccurrences.map fun o => (o.expr, item.2 + o.path.length)

/-- What is on top of the stack is looked at first. With its children in its place, the stack leads
to the rest. -/
theorem pending_cons (e : Expr) (depth : Nat) (rest : List (Expr × Nat)) :
    pending ((e, depth) :: rest) = (e, depth) :: pending (e.pushed depth ++ rest) := by
  have hbelow : (e.children.zipIdx.reverse.flatMap fun c =>
        c.1.backOccurrences.map (·.under [c.2])).map (fun o => (o.expr, depth + o.path.length)) =
      pending (e.pushed depth) := by
    rw [List.map_flatMap, pending, pushed, ← List.map_reverse, List.flatMap_map]
    nth_rewrite 2 [← List.zipIdx_map_fst 0 e.children]
    rw [← List.map_reverse, List.flatMap_map]
    refine List.flatMap_congr fun c _ => ?_
    simp [Occurrence.under, Function.comp_def, Nat.add_assoc, Nat.add_comm 1]
  rw [pending, List.flatMap_cons, backOccurrences_eq, List.map_cons, hbelow]
  simp [pending]

/-- A search finds the first expression with the property among all that it has to look at. -/
theorem searchStack_eq_find? (p : Nat → Expr → Bool) (stack : List (Expr × Nat)) :
    searchStack p stack = ((pending stack).find? fun item => p item.2 item.1).map (·.1) := by
  fun_induction searchStack p stack with
  | case1 => rfl
  | case2 e depth rest hp => rw [pending_cons, List.find?_cons, hp, Option.map_some]
  | case3 e depth rest hp ih => rw [pending_cons, List.find?_cons, eq_false_of_ne_true hp, ih]

/-- A search finds the first occurrence with the property, parents before children, and children
from the last to the first. -/
theorem search_eq_find? (p : Nat → Expr → Bool) (e : Expr) :
    e.search p = (e.backOccurrences.find? fun o => p o.path.length o.expr).map (·.expr) := by
  rw [search, searchStack_eq_find?, pending, List.flatMap_singleton, List.find?_map, Option.map_map]
  simp only [Function.comp_def, Nat.zero_add]

/-! ## The place that a search finds -/

/-- The children with their numbers, from the last to the first. -/
theorem pairwise_reverse_zipIdx_children (e : Expr) :
    e.children.zipIdx.reverse.Pairwise fun c d => c.2 > d.2 := by
  rw [List.pairwise_reverse, ← List.pairwise_map (R := fun i j => j > i), List.zipIdx_map_snd]
  exact List.pairwise_lt_range'

/-- The occurrences are listed from the earliest place to the last one. -/
theorem pairwise_backOccurrences (e : Expr) :
    e.backOccurrences.Pairwise fun o o' => BackBefore o.path o'.path := by
  induction e using induct_children with
  | h e ih =>
    rw [backOccurrences_eq, List.pairwise_cons, List.pairwise_flatMap]
    refine ⟨fun o ho => ?_, fun c hc => ?_, ?_⟩
    · obtain ⟨c, -, ho⟩ := List.mem_flatMap.mp ho
      obtain ⟨o, -, rfl⟩ := List.mem_map.mp ho
      exact .nil
    · rw [List.pairwise_map]
      exact (ih c.1 (mem_children_of_mem_zipIdx (List.mem_reverse.mp hc))).imp .cons
    · refine e.pairwise_reverse_zipIdx_children.imp fun {c d} hlater o ho o' ho' => ?_
      obtain ⟨o, -, rfl⟩ := List.mem_map.mp ho
      obtain ⟨o', -, rfl⟩ := List.mem_map.mp ho'
      exact .rel hlater

/-- The occurrences in this order are all places. -/
theorem mem_backOccurrences_iff {e : Expr} {o : Occurrence} :
    o ∈ e.backOccurrences ↔ e.at? o.path = some o.expr := by
  rw [e.backOccurrences_perm.mem_iff, mem_occurrences_iff]

/-- What comes first in a search is at a place with the property, and at no later one than any other
such place. -/
theorem first_of_find? {p : Nat → Expr → Bool} {e : Expr} {o : Occurrence}
    (h : e.backOccurrences.find? (fun o => p o.path.length o.expr) = some o) :
    e.at? o.path = some o.expr ∧ p o.path.length o.expr = true ∧
      ∀ path a, e.at? path = some a → p path.length a = true →
        path = o.path ∨ BackBefore o.path path := by
  obtain ⟨hp, before, after, hsplit, hbefore⟩ := List.find?_eq_some_iff_append.mp h
  refine ⟨mem_backOccurrences_iff.mp (List.mem_of_find?_eq_some h), hp, fun path a ha hpath => ?_⟩
  have hmem : ⟨path, a⟩ ∈ e.backOccurrences := mem_backOccurrences_iff.mpr ha
  have hsorted := e.pairwise_backOccurrences
  rw [hsplit] at hmem hsorted
  rcases List.mem_append.mp hmem with hmem | hmem
  · have hnot := hbefore _ hmem
    simp [hpath] at hnot
  · rcases List.mem_cons.mp hmem with heq | hmem
    · exact .inl (congrArg Occurrence.path heq)
    · exact .inr ((List.pairwise_cons.mp (List.pairwise_append.mp hsorted).2.1).1 _ hmem)

/-- A search finds the expression at the earliest place with the property. -/
theorem search_eq_some_iff {p : Nat → Expr → Bool} {e a : Expr} :
    e.search p = some a ↔ ∃ path, e.at? path = some a ∧ p path.length a = true ∧
      ∀ path' a', e.at? path' = some a' → p path'.length a' = true →
        path' = path ∨ BackBefore path path' := by
  rw [search_eq_find?, Option.map_eq_some_iff]
  constructor
  · rintro ⟨o, ho, rfl⟩
    exact ⟨o.path, first_of_find? ho⟩
  · rintro ⟨path, ha, hp, hfirst⟩
    have hsome : (e.backOccurrences.find? fun o => p o.path.length o.expr).isSome :=
      List.find?_isSome.mpr ⟨⟨path, a⟩, mem_backOccurrences_iff.mpr ha, hp⟩
    obtain ⟨o, ho⟩ := Option.isSome_iff_exists.mp hsome
    obtain ⟨hplace, hpo, hfirst'⟩ := first_of_find? ho
    refine ⟨o, ho, ?_⟩
    have hpath : o.path = path := by
      rcases hfirst _ _ hplace hpo with heq | hlater
      · exact heq
      · exact (hfirst' _ _ ha hp).elim Eq.symm fun hearlier => absurd hlater hearlier.asymm
    rw [hpath, ha] at hplace
    exact (Option.some.inj hplace).symm

/-- A search for a property of expressions alone finds nothing if and only if no expression with the
property can be reached. -/
theorem search_eq_none_iff {p : Expr → Bool} {e : Expr} :
    (e.search fun _ a => p a) = none ↔ ∀ a, e.Reaches a → p a = false := by
  rw [search_eq_find?, Option.map_eq_none_iff, List.find?_eq_none]
  simp only [e.backOccurrences_perm.mem_iff, ← mem_preorder_iff, ← map_expr_occurrences,
    List.forall_mem_map, Bool.not_eq_true]

/-! ## Searching for what is too deep -/

/-- The first expression that is below `room` levels. -/
def beyond? : (room : Nat) → Expr → Option Expr
  | 0, e => some e
  | room + 1, e => e.children.reverse.findSome? (Expr.beyond? room)

/-- What is searched for some levels down is searched for one level less below each child. -/
theorem find?_backOccurrences_succ (p : Nat → Bool) (hp : p 0 = false) (e : Expr) :
    e.backOccurrences.find? (p ·.path.length) =
      e.children.zipIdx.reverse.findSome? fun c =>
        (c.1.backOccurrences.find? (p <| ·.path.length + 1)).map (·.under [c.2]) := by
  rw [backOccurrences_eq, List.find?_cons, List.length_nil, hp, List.find?_flatMap]
  simp only [List.find?_map, Function.comp_def, Occurrence.under, List.length_append,
    List.length_singleton, Nat.add_comm 1]

/-- The first place that is so many levels down or more is so many levels down, since what is above
a place comes before it. -/
theorem find?_le_backOccurrences (n : Nat) (e : Expr) :
    e.backOccurrences.find? (n ≤ ·.path.length) =
      e.backOccurrences.find? (·.path.length = n) := by
  induction n generalizing e with
  | zero => simp [backOccurrences_eq e]
  | succ n ih =>
    rw [find?_backOccurrences_succ (n + 1 ≤ ·) (by simp),
      find?_backOccurrences_succ (· = n + 1) (by simp)]
    simp only [Nat.add_le_add_iff_right, Nat.add_right_cancel_iff, ih]

/-- The search over the levels finds the first place that is so many levels down. -/
theorem beyond?_eq_find? (room : Nat) (e : Expr) :
    e.beyond? room = (e.backOccurrences.find? (·.path.length = room)).map (·.expr) := by
  induction room generalizing e with
  | zero => simp [beyond?, backOccurrences_eq e]
  | succ room ih =>
    have hchild (c : Expr × Nat) :
        ((c.1.backOccurrences.find? (·.path.length = room)).map (·.under [c.2])).map (·.expr) =
          c.1.beyond? room := by
      rw [ih, Option.map_map]
      rfl
    rw [beyond?, find?_backOccurrences_succ (· = room + 1) (by simp), List.map_findSome?]
    nth_rewrite 1 [← List.zipIdx_map_fst 0 e.children]
    rw [← List.map_reverse, List.findSome?_map]
    simp only [Nat.add_right_cancel_iff, Function.comp_def, hchild]

/-- The search for something below a limit is that over the levels. -/
theorem search_eq_beyond? (limit : Nat) (e : Expr) :
    (e.search fun depth _ => limit < depth) = e.beyond? (limit + 1) := by
  rw [search_eq_find?, beyond?_eq_find?, ← find?_le_backOccurrences]
  rfl

end Expr

end JsonnetTree
