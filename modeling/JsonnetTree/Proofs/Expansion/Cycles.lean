import JsonnetTree.Proofs.Expansion.Basic
import Mathlib.Order.WellFoundedSet

/-!
# Cycles of definitions

A tree whose definitions refer to each other in a cycle cannot be expanded, whatever the limit is.
All other trees can be, with any limit that is large enough (`Tree.expand_dichotomy`).
-/

namespace JsonnetTree

namespace Expr

/-- The definition of the first name mentions the second one, which has a definition as well. -/
def Refers (e : Expr) (x y : String) : Prop :=
  ∃ body, e.definition? x = some body ∧ body.Mentions y ∧ (e.definition? y).isSome

/-- No definition refers to itself, also not through others. -/
def Acyclic (e : Expr) : Prop :=
  ∀ x, ¬Relation.TransGen e.Refers x x

variable {e e' body : Expr} {x y : String} {limit room : Nat}

/-! ## Without a cycle -/

/-- Only finitely many names have a definition. -/
theorem finite_defined (e : Expr) : {x | (e.definition? x).isSome}.Finite := by
  refine (e.bindings.map (·.name)).finite_toSet.subset fun x hx => ?_
  obtain ⟨body, hbody⟩ := Option.isSome_iff_exists.mp hx
  obtain ⟨b, hb, rfl, -⟩ := exists_of_definition? hbody
  exact List.mem_map_of_mem hb

/-- Without a cycle, every chain of definitions that refer to the next one comes to an end. -/
theorem Acyclic.wellFounded (h : e.Acyclic) : WellFounded fun y x => e.Refers x y := by
  let below (y x : String) : Prop := Relation.TransGen e.Refers x y
  have : IsStrictOrder String below :=
    { irrefl := h
      trans := fun _ _ _ hxy hyz => hyz.trans hxy }
  have hbelow := Set.wellFoundedOn_iff.mp (e.finite_defined.wellFoundedOn (r := below))
  refine Subrelation.wf (fun {y x} hxy => ?_) hbelow
  obtain ⟨body, hbody, -, hy⟩ := id hxy
  exact ⟨.single hxy, hy, Option.isSome_of_mem hbody⟩

/-- Without a cycle, every definition expands. -/
theorem Acyclic.exists_expands_definition (h : e.Acyclic) (hbody : e.definition? x = some body) :
    ∃ body', body.Expands e.captured body' := by
  induction x using h.wellFounded.induction generalizing body with
  | h x ih =>
    refine exists_expands_iff.mpr fun y other hmentions hother => ?_
    rw [lookup_captured] at hother
    exact ih y ⟨body, hbody, hmentions, Option.isSome_of_mem hother⟩ hother

/-- Without a cycle, the whole expression expands. -/
theorem Acyclic.exists_expands (h : e.Acyclic) : ∃ e', e.Expands e.captured e' := by
  refine exists_expands_iff.mpr fun x body _ hbody => h.exists_expands_definition (x := x) ?_
  rwa [lookup_captured] at hbody

/-! ## With a cycle -/

/-- A definition on a cycle is not expanded, whatever the room is: it would be expanded with less
room further on. -/
theorem not_expandWithin_of_cycle (hcycle : Relation.TransGen e.Refers x x)
    (hbody : e.definition? x = some body) :
    ¬∃ body', body.expandWithin e.captured limit room = .ok body' := by
  induction room using Nat.strong_induction_on generalizing x body with
  | h room ih =>
    rintro ⟨body', hexpand⟩
    obtain ⟨y, hxy, hyx⟩ := Relation.TransGen.head'_iff.mp hcycle
    obtain ⟨own, hown, hmentions, hy⟩ := id hxy
    obtain rfl : own = body := by simpa [hown] using hbody
    obtain ⟨other, hother⟩ := Option.isSome_iff_exists.mp hy
    obtain ⟨less, hless, hexpand⟩ := exists_expandWithin_of_mentions hexpand hmentions
      ((lookup_captured e y).trans hother)
    exact ih less hless (.tail' hyx hxy) hother hexpand

/-- An expression that is expanded has no cycle among its definitions. -/
theorem acyclic_of_expandWithin (h : e.expandWithin e.captured limit room = .ok e') : e.Acyclic := by
  intro x hcycle
  obtain ⟨y, hxy, hyx⟩ := Relation.TransGen.head'_iff.mp hcycle
  obtain ⟨body, hbody, hmentions, hy⟩ := id hxy
  obtain ⟨other, hother⟩ := Option.isSome_iff_exists.mp hy
  -- The cycle can be entered from the tree itself, since the definition was captured there.
  obtain ⟨less, -, hexpand⟩ := exists_expandWithin_of_mentions h (hmentions.of_definition? hbody)
    ((lookup_captured e y).trans hother)
  exact not_expandWithin_of_cycle (.tail' hyx hxy) hother hexpand

end Expr

namespace Tree

variable {t : Tree} {limit : Nat}

/-- Expansion succeeds, or it fails for want of depth. -/
theorem expand_ok_or_depthExceeded (t : Tree) (limit : Nat) :
    (∃ t', t.expand limit = .ok t') ∨
      ∃ location, t.expand limit = .error (.depthExceeded limit location) := by
  cases hdepth : t.root.beyond? (limit + 1) with
  | some deep =>
    refine .inr ⟨deep.location, ?_⟩
    simp only [Tree.expand, Expr.checkDepth, Expr.search_eq_beyond?, hdepth]
    rfl
  | none =>
    cases hexpand : t.root.expandWithin t.root.captured limit (limit + 1) with
    | ok root => exact .inl ⟨{ t with root }, expand_eq_ok_iff.mpr ⟨root, hexpand, rfl⟩⟩
    | error err =>
      obtain ⟨location, rfl⟩ := Expr.eq_depthExceeded_of_expandWithin hexpand
      refine .inr ⟨location, ?_⟩
      simp only [Tree.expand, Expr.checkDepth, Expr.search_eq_beyond?, hdepth, hexpand]
      rfl

/-- If the definitions of a tree refer to each other in a cycle, then expanding it fails with every
limit for want of depth. If they do not, then expanding it succeeds with every limit that is large
enough. -/
theorem expand_dichotomy (t : Tree) :
    ((∃ x, Relation.TransGen t.root.Refers x x) →
        ∀ limit, ∃ location, t.expand limit = .error (.depthExceeded limit location)) ∧
      ((¬∃ x, Relation.TransGen t.root.Refers x x) →
        ∃ enough, ∀ limit ≥ enough, ∃ t', t.expand limit = .ok t') := by
  constructor
  · rintro ⟨x, hcycle⟩ limit
    refine (t.expand_ok_or_depthExceeded limit).resolve_left ?_
    rintro ⟨t', h⟩
    obtain ⟨root, hroot, -⟩ := expand_eq_ok_iff.mp h
    exact Expr.acyclic_of_expandWithin hroot x hcycle
  · intro hacyclic
    have hacyclic : t.root.Acyclic := fun x hx => hacyclic ⟨x, hx⟩
    obtain ⟨root, limit', enough, hroot⟩ := hacyclic.exists_expands
    refine ⟨enough, fun limit hlimit => ⟨{ t with root }, expand_eq_ok_iff.mpr ⟨root, ?_, rfl⟩⟩⟩
    exact Expr.expandWithin_mono hroot (Nat.le_succ_of_le hlimit)

/-- Two definitions refer to each other, although neither is used. And a function refers to a
definition that is bound twice, of which only the first would refer to itself. -/
theorem expand_dichotomy_pairs :
    let cyclic : Tree := ⟨.raw, Build.locals [("a", Build.var "b"),
      ("b", Build.array [Build.null, Build.var "a"])] Build.null, []⟩
    let acyclic : Tree := ⟨.raw, Build.locals [("a", Build.unary .not (Build.var "a")),
      ("a", Build.null), ("f", Build.function ["y"] (Build.var "a"))] (Build.var "f"), []⟩
    Relation.TransGen cyclic.root.Refers "a" "a" ∧
      (∀ limit, ∃ location, cyclic.expand limit = .error (.depthExceeded limit location)) ∧
      (¬∃ x, Relation.TransGen acyclic.root.Refers x x) ∧
      ∃ enough, ∀ limit ≥ enough, ∃ t', acyclic.expand limit = .ok t' := by
  intro cyclic acyclic
  have hab : cyclic.root.Refers "a" "b" :=
    ⟨Build.var "b", rfl, ⟨Build.var "b", .refl _, rfl⟩, rfl⟩
  have hba : cyclic.root.Refers "b" "a" :=
    ⟨Build.array [Build.null, Build.var "a"], rfl,
      ⟨Build.var "a", .child (.tail _ (.head _)) (.refl _), rfl⟩, rfl⟩
  have hcycle : Relation.TransGen cyclic.root.Refers "a" "a" := .tail (.single hab) hba
  have hacyclic : ¬∃ x, Relation.TransGen acyclic.root.Refers x x := by
    have hexpand : acyclic.root.expandWithin acyclic.root.captured 4 5 =
        .ok (Build.locals [("a", Build.unary .not Build.null), ("a", Build.null),
          ("f", Build.function ["y"] Build.null)] (Build.function ["y"] Build.null)) := rfl
    rintro ⟨x, hx⟩
    exact Expr.acyclic_of_expandWithin hexpand x hx
  exact ⟨hcycle, (expand_dichotomy cyclic).1 ⟨"a", hcycle⟩, hacyclic,
    (expand_dichotomy acyclic).2 hacyclic⟩

end Tree

end JsonnetTree
