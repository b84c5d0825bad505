import JsonnetTree.Proofs.Command
import JsonnetTree.Proofs.Expansion.Cycles
import JsonnetTree.Proofs.Expansion.Fixpoint

/-!
# The limit of an expansion

Expansion counts a level for every replacement besides those for going to a child, so an expanded
tree has fewer levels than were counted. The limit decides whether a tree is expanded, but not what
it is expanded to.
-/

namespace JsonnetTree

/-- An expanded expression has fewer levels below it than there was room. -/
theorem Expr.depth_lt_of_expandWithin {captured : List (String × Expr)} {limit room : Nat}
    {e e' : Expr} (h : e.expandWithin captured limit room = .ok e') : e'.depth < room :=
  beyond?_eq_none_iff.mp (beyond?_expanded h)

namespace Tree

variable {t t' : Tree} {limit other : Nat}

/-- An expanded tree is no deeper than the limit. -/
theorem depth_le_of_expand (h : t.expand limit = .ok t') : t'.root.depth ≤ limit := by
  obtain ⟨root, hroot, rfl⟩ := expand_eq_ok_iff.mp h
  exact Nat.le_of_lt_succ (Expr.depth_lt_of_expandWithin hroot)

/-- A tree that is expanded with a limit is expanded to the same tree with a larger one. -/
theorem expand_mono (h : t.expand limit = .ok t') (hle : limit ≤ other) :
    t.expand other = .ok t' := by
  obtain ⟨root, hroot, rfl⟩ := expand_eq_ok_iff.mp h
  have hmore : t.root.expandWithin t.root.captured other (other + 1) = .ok root :=
    Expr.expandWithin_mono hroot (by omega)
  exact expand_eq_ok_iff.mpr ⟨root, hmore, rfl⟩

/-- A tree is expanded to one tree only, whatever the limits are. -/
theorem expand_unique {t'' : Tree} (h : t.expand limit = .ok t') (h' : t.expand other = .ok t'') :
    t'' = t' := by
  rcases Nat.le_total limit other with hle | hle
  · have hother := expand_mono h hle
    rw [h'] at hother
    exact Except.ok.inj hother
  · have hlimit := expand_mono h' hle
    rw [h] at hlimit
    exact (Except.ok.inj hlimit).symm

/-- The limit decides only whether a tree is expanded. An expanded tree passes the check of its
depth with the same limit, so that printing it with this limit does not fail for the depth. With any
larger limit the result is the same, and with any limit at all it is the same or the expansion fails
for the depth. -/
theorem expand_limit (h : t.expand limit = .ok t') :
    t'.root.checkDepth limit = .ok () ∧
      (∀ options err, t'.print options limit ≠ .error (.walk err)) ∧
      (∀ more, limit ≤ more → t.expand more = .ok t') ∧
      ∀ other, t.expand other = .ok t' ∨
        ∃ location, t.expand other = .error (.depthExceeded other location) := by
  have hdepth : t'.root.depth ≤ limit := depth_le_of_expand h
  refine ⟨Expr.checkDepth_of_le hdepth, ?_, fun more => expand_mono h, fun other => ?_⟩
  · intro options err hprint
    exact failsOnly_print hdepth options _ hprint err rfl
  · rcases t.expand_ok_or_depthExceeded other with ⟨t'', hother⟩ | hfails
    · obtain rfl := expand_unique h hother
      exact .inl hother
    · exact .inr hfails

/-- A definition that mentions another one takes two replacements, so a limit of five is needed for
a tree that has three levels below its root in the end. -/
theorem expand_limit_nested :
    let binds := [("x", Build.array [Build.null]), ("y", Build.array [Build.var "x"])]
    let t : Tree := ⟨.raw, Build.locals binds (Build.var "y"), []⟩
    let nested := Build.array [Build.array [Build.null]]
    let t' : Tree :=
      ⟨.raw, Build.locals [("x", Build.array [Build.null]), ("y", nested)] nested, []⟩
    t.expand 5 = .ok t' ∧ t'.root.checkDepth 5 = .ok () ∧
      (∀ options err, t'.print options 5 ≠ .error (.walk err)) ∧
      (∀ more, 5 ≤ more → t.expand more = .ok t') ∧
      t.expand 4 = .error (.depthExceeded 4 .unset) := by
  intro binds t nested t'
  have h : t.expand 5 = .ok t' := by
    unfold t t' nested binds
    rfl
  have hless : t.expand 4 = .error (.depthExceeded 4 .unset) := by
    unfold t binds
    rfl
  obtain ⟨hcheck, hprint, hmore, -⟩ := expand_limit h
  exact ⟨h, hcheck, hprint, hmore, hless⟩

end Tree

end JsonnetTree
