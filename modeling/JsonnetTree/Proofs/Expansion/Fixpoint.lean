import JsonnetTree.Proofs.Expansion.Basic

/-!
# Expansion reaches a fixpoint

An expanded tree mentions none of the names that were bound, and it binds no new ones. It is no
deeper than the limit either, so to expand it again with this limit changes nothing
(`Tree.expand_expanded`).
-/

namespace JsonnetTree

/-! ## What replacing children keeps -/

namespace Form

variable {α : Type} {form : Form α} {new : List α}

/-- Only a variable is a variable after its children are replaced. -/
theorem eq_var_of_withChildren {x : String} (h : form.withChildren new = .var x) :
    form = .var x := by
  cases form with
  | var _ => exact h
  | _ => cases h

/-- Only local bindings are local bindings after their children are replaced, and their names are
the same. -/
theorem eq_locals_of_withChildren {binds : List (Binding α)} {body : α}
    (h : form.withChildren new = .locals binds body) :
    ∃ binds' body', form = .locals binds' body' ∧ binds.map (·.name) = binds'.map (·.name) := by
  cases form with
  | locals binds' body' =>
    have hbinds : (binds'.mapM (·.mapM refill) new).1 = binds := (Form.locals.inj h).1
    refine ⟨binds', body', rfl, ?_⟩
    rw [← hbinds]
    exact map_mapM_of_kept (fun b supply => rfl) binds' new
  | _ => cases h

end Form

namespace Expr

variable {captured : List (String × Expr)} {limit room : Nat} {e e' a : Expr}

/-- An expanded expression has no more levels than there was room. -/
theorem beyond?_expanded (h : e.expandWithin captured limit room = .ok e') :
    e'.beyond? room = none := by
  induction room generalizing e e' with
  | zero => cases h
  | succ room ih =>
    obtain ⟨body, -, h⟩ | ⟨-, new, hnew, rfl⟩ := expandWithin_eq_ok h
    · exact beyond?_mono (ih h) (Nat.le_succ room)
    · rw [beyond?_succ_eq_none_iff]
      have hchildren : (e.withChildren new).children = new :=
        Form.children_withChildren hnew.length_eq.symm
      rw [hchildren]
      intro c hc
      obtain ⟨old, -, hexpand⟩ := Outcome.exists_of_mem_right hnew c hc
      exact ih hexpand

/-- An expression that has enough room and no variable with a replacement is kept. -/
theorem expandWithin_eq_self (hroom : e.beyond? room = none)
    (h : ∀ a, e.Reaches a → a.replacement? captured = none) :
    e.expandWithin captured limit room = .ok e := by
  induction room generalizing e with
  | zero => cases hroom
  | succ room ih =>
    rw [beyond?_succ_eq_none_iff] at hroom
    have hchildren : List.Forall₂ (fun c c' => c.expandWithin captured limit room = .ok c')
        e.children e.children :=
      List.forall₂_same.mpr fun c hc => ih (hroom c hc) fun a ha => h a (.child hc ha)
    rw [expandWithin_of_none (h e (.refl e)) hchildren, withChildren_children]

/-! ## What an expanded tree mentions and binds -/

/-- A variable of an expanded expression has no definition. -/
theorem definition?_of_mentions_expanded {x : String}
    (h : e.expandWithin e.captured limit room = .ok e') (hx : e'.Mentions x) :
    e.definition? x = none := by
  obtain ⟨a, ha, hform⟩ := hx
  obtain ⟨c, new, rfl, hnone, -⟩ := exists_source_of_expanded h ha
  have hvar : c.form = .var x := Form.eq_var_of_withChildren hform
  rw [replacement?, hvar] at hnone
  rw [← lookup_captured]
  exact hnone

/-- The names that an expanded expression binds were bound before. -/
theorem exists_binding_of_expanded {b : Binding Expr}
    (h : e.expandWithin e.captured limit room = .ok e') (hb : b ∈ e'.bindings) :
    ∃ b' ∈ e.bindings, b'.name = b.name := by
  obtain ⟨a, binds, body, ha, hform, hmem⟩ := mem_bindings_iff.mp hb
  obtain ⟨c, new, rfl, -, hc⟩ := exists_source_of_expanded h ha
  obtain ⟨binds', body', hform', hnames⟩ := Form.eq_locals_of_withChildren hform
  have hreach : e.Reaches c := by
    rcases hc with hc | ⟨_, rfl⟩ | ⟨_, _, rfl⟩
    · exact hc
    · cases hform'
    · cases hform'
  have hname : b.name ∈ binds'.map (·.name) := hnames ▸ List.mem_map_of_mem hmem
  obtain ⟨b', hb', heq⟩ := List.mem_map.mp hname
  exact ⟨b', mem_bindings_iff.mpr ⟨c, binds', body', hreach, hform', hb'⟩, heq⟩

end Expr

namespace Tree

/-- No variable of an expanded tree names a binding of the tree that was expanded, and to expand it
again with the same limit changes nothing. -/
theorem expand_expanded {t t' : Tree} {limit : Nat} (h : t.expand limit = .ok t') :
    (∀ v x, t'.root.Reaches v → v.form = .var x →
        ∀ e binds body, t.root.Reaches e → e.form = .locals binds body →
          ∀ b ∈ binds, b.name ≠ x) ∧
      t'.expand limit = .ok t' := by
  obtain ⟨root, hroot, rfl⟩ := expand_eq_ok_iff.mp h
  have hunbound {x : String} (hx : root.Mentions x) : t.root.definition? x = none :=
    Expr.definition?_of_mentions_expanded hroot hx
  refine ⟨fun v x hv hform e binds body he hlocals b hb => ?_, ?_⟩
  · have hmem : b ∈ t.root.bindings := Expr.mem_bindings_iff.mpr ⟨e, binds, body, he, hlocals, hb⟩
    exact Expr.definition?_eq_none_iff.mp (hunbound ⟨v, hv, hform⟩) b hmem
  · -- The names that are captured the second time were captured the first time.
    have hkept : ∀ a, root.Reaches a → a.replacement? root.captured = none := by
      intro a ha
      rw [Option.eq_none_iff_forall_ne_some]
      intro body hbody
      obtain ⟨x, hform, hlookup⟩ := Expr.replacement?_eq_some_iff.mp hbody
      rw [Expr.lookup_captured] at hlookup
      obtain ⟨b, hb, rfl, -⟩ := Expr.exists_of_definition? hlookup
      obtain ⟨b', hb', hname⟩ := Expr.exists_binding_of_expanded hroot hb
      exact Expr.definition?_eq_none_iff.mp (hunbound ⟨a, ha, hform⟩) b' hb' hname
    have hself : root.expandWithin root.captured limit (limit + 1) = .ok root :=
      Expr.expandWithin_eq_self (Expr.beyond?_expanded hroot) hkept
    exact expand_eq_ok_iff.mpr ⟨root, hself, rfl⟩

/-- A name is bound twice, the second time in the body of a function, and the function is called by
another name. -/
theorem expand_expanded_shadowed :
    let f : Binding Expr := ⟨[], "f", [], Build.locals [("a", Build.null)] (Build.var "a"),
      some (Build.parameters ["y"]), [], .unset⟩
    let t : Tree := ⟨.raw, .ofForm (.locals [Build.binding "a" (Build.number "1"), f,
      Build.binding "g" (Build.var "f")] (Build.apply (Build.var "g") [Build.var "a"] [])), []⟩
    let expandedBody := Build.locals [("a", Build.null)] Build.null
    let function := Build.parens (Build.function ["y"] expandedBody)
    let t' : Tree := ⟨.raw, .ofForm (.locals [Build.binding "a" (Build.number "1"),
      { f with body := expandedBody }, Build.binding "g" function]
      (Build.apply function [Build.null] [])), []⟩
    t.expand 8 = .ok t' ∧
      (∀ v x, t'.root.Reaches v → v.form = .var x →
        ∀ e binds body, t.root.Reaches e → e.form = .locals binds body →
          ∀ b ∈ binds, b.name ≠ x) ∧
      t'.expand 8 = .ok t' := by
  intro f t expandedBody function t'
  have h : t.expand 8 = .ok t' := by
    unfold t t' function expandedBody f
    rfl
  exact ⟨h, expand_expanded h⟩

end Tree

end JsonnetTree
