import JsonnetTree.Numbering
import JsonnetTree.Proofs.Depth

/-!
# Numbers of expressions

The expressions below an expression are numbered one after the other in the order of
`Expr.preorder` (`Expr.map_entry_number`). Every part of a numbered tree is itself numbered from
its own number on (`Expr.eq_number_of_mem`), so what is known of the root of a numbered tree is
known of every place in it.
-/

namespace JsonnetTree

namespace Numbered

/-- An expression and its number. -/
def entry (n : Numbered) : Expr × Nat := (n.expr, n.id)

/-- Induction over numbered expressions, with the property at hand for all children. -/
theorem induct {motive : Numbered → Prop}
    (h : ∀ n : Numbered, (∀ c ∈ n.children, motive c) → motive n) : (n : Numbered) → motive n
  | .mk id expr children => h _ fun c hc =>
    have : sizeOf c < sizeOf children := List.sizeOf_lt_of_mem hc
    induct h c
termination_by n => sizeOf n
decreasing_by
  simp only [Numbered.mk.sizeOf_spec]
  omega

/-- Several expressions are listed one after the other. -/
theorem toListAll_eq (ns : List Numbered) : toListAll ns = ns.flatMap toList := by
  induction ns with
  | nil => rfl
  | cons n ns ih => rw [toListAll, ih, List.flatMap_cons]

/-- An expression comes first, then all below its children, child by child. -/
theorem toList_eq (n : Numbered) : n.toList = n :: n.children.flatMap toList := by
  cases n
  rw [toList, toListAll_eq]
  rfl

/-- Every expression is listed before all others below it. -/
theorem map_sublist_flatMap_toList {α : Type} (f : Numbered → α) (ns : List Numbered) :
    (ns.map f).Sublist ((ns.flatMap toList).map f) := by
  induction ns with
  | nil => exact .slnil
  | cons n ns ih =>
    rw [List.flatMap_cons, toList_eq, List.map_cons, List.cons_append, List.map_cons,
      List.map_append]
    exact (List.sublist_append_of_sublist_right ih).cons_cons _

/-- Every expression but the first is a child of exactly one expression. -/
theorem map_id_toList_perm (n : Numbered) :
    (n.toList.map id).Perm (n.id :: n.toList.flatMap fun m => m.children.map id) := by
  induction n using induct with
  | h n ih =>
    have hchildren : ((n.children.flatMap toList).map id).Perm
        (n.children.map id ++ n.children.flatMap fun c =>
          c.toList.flatMap fun m => m.children.map id) := by
      rw [List.map_flatMap, List.map_eq_flatMap]
      exact (List.Perm.flatMap_left _ ih).trans
        (List.flatMap_append_perm n.children (fun c => [c.id]) _).symm
    rw [toList_eq, List.map_cons, List.flatMap_cons, List.flatMap_assoc]
    exact hchildren.cons _

end Numbered

/-! ## Numbering -/

namespace Expr

variable {e c : Expr} {next : Nat}

/-- An expression takes the next number, and its children those after it. -/
theorem number_eq (e : Expr) (next : Nat) :
    e.number next =
      (.mk next e (numberAll (e.children.map number) (next + 1)).1,
        (numberAll (e.children.map number) (next + 1)).2) := by
  rw [number, fold_eq]

/-- An expression gets the next number. -/
@[simp] theorem id_number (e : Expr) (next : Nat) : (e.number next).1.id = next := by
  rw [number_eq]
  rfl

/-- A numbered expression is the expression itself with numbers. -/
@[simp] theorem expr_number (e : Expr) (next : Nat) : (e.number next).1.expr = e := by
  rw [number_eq]
  rfl

/-- The children of a numbered expression are numbered one after the other. -/
theorem children_number (e : Expr) (next : Nat) :
    (e.number next).1.children = (numberAll (e.children.map number) (next + 1)).1 := by
  rw [number_eq]
  rfl

/-- Numbering several expressions starts with the first, and goes on where it ends. -/
theorem numberAll_cons (c : Expr) (cs : List Expr) (next : Nat) :
    numberAll ((c :: cs).map number) next =
      ((c.number next).1 :: (numberAll (cs.map number) (c.number next).2).1,
        (numberAll (cs.map number) (c.number next).2).2) := rfl

/-- Each of several expressions is numbered from some number on. -/
theorem exists_of_mem_numberAll {cs : List Expr} {n : Numbered}
    (h : n ∈ (numberAll (cs.map number) next).1) : ∃ c ∈ cs, ∃ start, n = (c.number start).1 := by
  induction cs generalizing next with
  | nil => cases h
  | cons c cs ih =>
    rw [numberAll_cons] at h
    rcases List.mem_cons.mp h with rfl | h
    · exact ⟨c, by simp, next, rfl⟩
    · obtain ⟨d, hd, hn⟩ := ih h
      exact ⟨d, by simp [hd], hn⟩

/-- The expressions that are numbered are those that are given. -/
theorem map_expr_numberAll (cs : List Expr) (next : Nat) :
    (numberAll (cs.map number) next).1.map (·.expr) = cs := by
  induction cs generalizing next with
  | nil => rfl
  | cons c cs ih => rw [numberAll_cons, List.map_cons, ih, expr_number]

/-- The numbered children are the children. -/
theorem map_expr_children_number (e : Expr) (next : Nat) :
    (e.number next).1.children.map (·.expr) = e.children := by
  rw [children_number, map_expr_numberAll]

/-- If each of several expressions takes as many numbers as there are expressions to reach, and in
their order, then so do all of them together. -/
theorem map_entry_numberAll {cs : List Expr}
    (h : ∀ c ∈ cs, ∀ next, (c.number next).1.toList.map Numbered.entry = c.preorder.zipIdx next ∧
      (c.number next).2 = next + c.preorder.length) (next : Nat) :
    ((numberAll (cs.map number) next).1.flatMap Numbered.toList).map Numbered.entry =
        (cs.flatMap preorder).zipIdx next ∧
      (numberAll (cs.map number) next).2 = next + (cs.flatMap preorder).length := by
  induction cs generalizing next with
  | nil => exact ⟨rfl, rfl⟩
  | cons c cs ih =>
    obtain ⟨hc, hcs⟩ := List.forall_mem_cons.mp h
    obtain ⟨hlist, hnext⟩ := hc next
    obtain ⟨hlists, hnexts⟩ := ih hcs (next + c.preorder.length)
    rw [numberAll_cons, hnext]
    constructor
    · rw [List.flatMap_cons, List.map_append, hlist, hlists, List.flatMap_cons,
        List.zipIdx_append]
    · rw [hnexts, List.flatMap_cons, List.length_append, Nat.add_assoc]

/-- The expressions that can be reached are numbered in order, and the next free number is the one
after them. -/
theorem map_entry_number (e : Expr) (next : Nat) :
    (e.number next).1.toList.map Numbered.entry = e.preorder.zipIdx next ∧
      (e.number next).2 = next + e.preorder.length := by
  induction e using induct_children generalizing next with
  | h e ih =>
    obtain ⟨hlist, hnext⟩ := map_entry_numberAll ih (next + 1)
    have hentry : (e.number next).1.entry = (e, next) := by
      rw [Numbered.entry, expr_number, id_number]
    constructor
    · rw [Numbered.toList_eq, children_number, List.map_cons, hlist, hentry, preorder_eq,
        List.zipIdx_cons]
    · rw [number_eq, preorder_eq, List.length_cons]
      dsimp only
      omega

/-- The numbers are given out one after the other. -/
theorem map_id_number (e : Expr) (next : Nat) :
    (e.number next).1.toList.map Numbered.id = List.range' next e.preorder.length := by
  have hids := congrArg (List.map Prod.snd) (e.map_entry_number next).1
  rwa [List.map_map, List.zipIdx_map_snd] at hids

/-- Numbers grow from an expression to its children, and from one child to the next. -/
theorem pairwise_children_number (e : Expr) (next : Nat) :
    (next :: (e.number next).1.children.map Numbered.id).Pairwise (· < ·) := by
  have hsublist : (next :: (e.number next).1.children.map Numbered.id).Sublist
      ((e.number next).1.toList.map Numbered.id) := by
    rw [Numbered.toList_eq, List.map_cons, id_number]
    exact (Numbered.map_sublist_flatMap_toList _ _).cons_cons _
  rw [map_id_number] at hsublist
  exact (List.pairwise_lt_range' ..).sublist hsublist

/-- Every part of a numbered tree is numbered from its own number on. -/
theorem eq_number_of_mem {m : Numbered} (h : m ∈ (e.number next).1.toList) :
    m = (m.expr.number m.id).1 := by
  induction e using induct_children generalizing next with
  | h e ih =>
    rw [Numbered.toList_eq] at h
    rcases List.mem_cons.mp h with rfl | h
    · rw [expr_number, id_number]
    · obtain ⟨n, hn, hm⟩ := List.mem_flatMap.mp h
      rw [children_number] at hn
      obtain ⟨c, hc, start, rfl⟩ := exists_of_mem_numberAll hn
      exact ih c hc hm

/-- A numbered expression is the one that its number says. -/
theorem getElem?_preorder_of_mem {m : Numbered} (h : m ∈ (e.number 0).1.toList) :
    e.preorder[m.id]? = some m.expr := by
  have hentry := List.mem_map_of_mem (f := Numbered.entry) h
  rw [(e.map_entry_number 0).1] at hentry
  exact List.mem_zipIdx_iff_getElem?.mp hentry

/-! ## Counting on a walk -/

/-- Entering an expression is counted, if the count stays within its bound. -/
theorem countHook_pre {a : Expr} {count : Nat} (h : count < UInt32.size) :
    countHook .pre a count = (.ok (), count + 1) := by
  change (if count < UInt32.size then set (count + 1) else throw _ :
    ExceptT String (StateM Nat) Unit) count = _
  rw [if_pos h]
  rfl

/-- As many calls are counted as enter an expression. -/
theorem accepts_countHook (visits : List Visit) (count : Nat)
    (h : count + visits.countP (·.phase = .pre) ≤ UInt32.size) :
    countHook.Accepts count visits (count + visits.countP (·.phase = .pre)) := by
  induction visits generalizing count with
  | nil => exact .nil count
  | cons v visits ih =>
    obtain ⟨⟨path, a⟩, phase⟩ := v
    cases phase with
    | pre =>
      rw [List.countP_cons_of_pos (by simp)] at h ⊢
      rw [Nat.add_comm (visits.countP _), ← Nat.add_assoc] at h ⊢
      exact .cons (countHook_pre (by omega)) (ih (count + 1) h)
    | mid | post =>
      rw [List.countP_cons_of_neg (by simp)] at h ⊢
      exact .cons rfl (ih count h)

/-- A walk enters every expression that can be reached once. -/
theorem countP_pre_visits (e : Expr) : e.visits.countP (·.phase = .pre) = e.preorder.length := by
  have hlength := congrArg List.length e.pre_visits
  rwa [List.length_map, ← List.countP_eq_length_filter, ← List.length_map (f := (·.expr)),
    map_expr_occurrences] at hlength

/-- An expression that is no deeper than the limit can be numbered, if the numbers suffice. -/
theorem numbered_of_le {limit : Nat} (hdepth : e.depth ≤ limit)
    (hcount : e.preorder.length ≤ UInt32.size) : e.numbered limit = .ok (e.number 0).1 := by
  rw [← countP_pre_visits] at hcount
  have haccepts := accepts_countHook e.visits 0 (by omega)
  have hwalk := walk_of_accepts hdepth haccepts
  simp only [numbered, ExceptT.run, hwalk]
  rfl

end Expr

end JsonnetTree
