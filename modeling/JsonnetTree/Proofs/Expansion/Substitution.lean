import JsonnetTree.Proofs.Expansion.Cycles

/-!
# Expansion is one substitution

Expansion goes into every expression that it puts in the place of a variable, each time with
another depth. What comes out is nevertheless one substitution, made everywhere at once: every
defined name stands for one expression, which is its definition after the same substitution
(`Tree.expand_eq_substitute`).
-/

namespace JsonnetTree

/-! ## Definitions -/

/-- The definition of a name is what stands for its last binding. -/
theorem Expr.definition?_eq_some_iff {e body : Expr} {x : String} :
    e.definition? x = some body ↔
      ∃ before b after, e.bindings = before ++ b :: after ∧ b.name = x ∧
        (∀ c ∈ after, c.name ≠ x) ∧ b.StandsFor body := by
  simp only [definition?, Option.map_eq_some_iff, List.find?_eq_some_iff_append,
    Binding.captured_eq_iff]
  constructor
  · rintro ⟨b, ⟨hname, after, before, hsplit, hafter⟩, hbody⟩
    refine ⟨before.reverse, b, after.reverse, ?_, by simpa using hname, ?_, hbody⟩
    · simpa using congrArg List.reverse hsplit
    · simpa using hafter
  · rintro ⟨before, b, after, hsplit, hname, hafter, hbody⟩
    refine ⟨b, ⟨by simpa using hname, after.reverse, before.reverse, ?_, ?_⟩, hbody⟩
    · simp [hsplit]
    · simpa using hafter

/-! ## Substitution -/

namespace Expr

/-- One level of a substitution: a variable with a value is replaced by it, and any other expression
gets the results for its children. -/
def substituteStep (s : String → Option Expr) : Expr.Step Expr := fun e form =>
  match e.form with
  | .var x => (s x).getD e
  | _ => { e with form := form.mapChildren Prod.snd Prod.fst }

/-- Puts an expression in the place of every variable that can be reached and that the map has a
value for, and changes nothing else. -/
def substitute (s : String → Option Expr) : Expr → Expr :=
  Expr.para (substituteStep s)

variable {s : String → Option Expr} {e e' : Expr} {x : String}

/-- A variable is replaced by its value if it has one. -/
theorem substitute_of_var (h : e.form = .var x) : e.substitute s = (s x).getD e := by
  rw [substitute, para_eq, substituteStep, h]

/-- An expression that is not replaced is kept, except for its children. -/
theorem substitute_of_kept (h : ∀ x, e.form = .var x → s x = none) :
    e.substitute s = e.mapChildren (substitute s) := by
  have hresults : (e.form.map (withResult (substituteStep s))).mapChildren Prod.snd Prod.fst =
      e.form.mapChildren (substitute s) id := by
    rw [Form.map_eq_mapChildren, Form.mapChildren_mapChildren]
    rfl
  by_cases hvar : ∃ x, e.form = .var x
  · obtain ⟨x, hx⟩ := hvar
    rw [substitute_of_var hx, h x hx, Option.getD_none, mapChildren, hx]
    cases e
    cases hx
    rfl
  · rw [substitute, para_eq, substituteStep, hresults]
    split
    next x hx => exact absurd ⟨x, hx⟩ hvar
    next => rfl

section Expands

variable {captured : List (String × Expr)} {limit room : Nat}

/-- Where a map gives a value to exactly the captured names, namely what they expand to, expansion
is the substitution. -/
theorem eq_substitute_of_expandWithin
    (hnone : ∀ x, captured.reverse.lookup x = none → s x = none)
    (hsome : ∀ x body, captured.reverse.lookup x = some body →
      ∃ value, s x = some value ∧ body.Expands captured value)
    (h : e.expandWithin captured limit room = .ok e') : e' = e.substitute s := by
  induction room generalizing e e' with
  | zero => cases h
  | succ room ih =>
    obtain ⟨body, hbody, h⟩ | ⟨hkept, new, hnew, rfl⟩ := expandWithin_eq_ok h
    · obtain ⟨x, hform, hlookup⟩ := replacement?_eq_some_iff.mp hbody
      obtain ⟨value, hvalue, hexpands⟩ := hsome x body hlookup
      rw [substitute_of_var hform, hvalue, Option.getD_some]
      exact Expands.unique ⟨limit, room, h⟩ hexpands
    · have hvar : ∀ x, e.form = .var x → s x = none := by
        intro x hform
        rw [replacement?, hform] at hkept
        exact hnone x hkept
      have hmap : new = e.children.map (substitute s) :=
        Outcome.eq_map_of_forall₂ (hnew.imp fun c c' hc => ih hc)
      rw [hmap, withChildren_map, substitute_of_kept hvar]

end Expands

/-- The substitution gives every defined name its definition after the substitution itself, and
gives no value to other names. -/
def Resolves (e : Expr) (s : String → Option Expr) : Prop :=
  ∀ x, s x = (e.definition? x).map (substitute s)

/-- If an expression is expanded with its own definitions, then the expanded expression comes from
a substitution that resolves them. -/
theorem exists_resolves {limit room : Nat} (h : e.expandWithin e.captured limit room = .ok e') :
    ∃ s, e.Resolves s ∧ e' = e.substitute s := by
  have hall : ∀ body, (∃ x, e.definition? x = some body) → ∃ body', body.Expands e.captured body' :=
    fun body ⟨_, hx⟩ => (acyclic_of_expandWithin h).exists_expands_definition hx
  choose! value hvalue using hall
  let s (x : String) : Option Expr := (e.definition? x).map value
  have hsubstitute {a a' : Expr} {limit room : Nat}
      (ha : a.expandWithin e.captured limit room = .ok a') : a' = a.substitute s := by
    refine eq_substitute_of_expandWithin (fun x hx => ?_) (fun x body hx => ?_) ha
    · rw [lookup_captured] at hx
      exact Option.map_eq_none_iff.mpr hx
    · rw [lookup_captured] at hx
      exact ⟨value body, Option.map_eq_some_iff.mpr ⟨body, hx, rfl⟩, hvalue body ⟨x, hx⟩⟩
  refine ⟨s, fun x => Option.map_congr fun body hbody => ?_, hsubstitute h⟩
  obtain ⟨limit', room', hexpand⟩ := hvalue body ⟨x, hbody⟩
  exact hsubstitute hexpand

end Expr

namespace Tree

/-- An expanded tree is the tree after one substitution. The substitution gives a value to exactly
the names that are bound: what stands for the last binding of the name, after the substitution
itself. -/
theorem expand_eq_substitute {t t' : Tree} {limit : Nat} (h : t.expand limit = .ok t') :
    ∃ definition s : String → Option Expr,
      (∀ x body, definition x = some body ↔
        ∃ before b after, t.root.bindings = before ++ b :: after ∧ b.name = x ∧
          (∀ c ∈ after, c.name ≠ x) ∧ b.StandsFor body) ∧
      (∀ x, s x = (definition x).map (Expr.substitute s)) ∧
      t' = { t with root := t.root.substitute s } := by
  obtain ⟨root, hroot, rfl⟩ := expand_eq_ok_iff.mp h
  obtain ⟨s, hs, rfl⟩ := Expr.exists_resolves hroot
  exact ⟨t.root.definition?, s, fun _ _ => Expr.definition?_eq_some_iff, hs, rfl⟩

/-- A function refers to an import by another name, and both are used. -/
theorem expand_eq_substitute_import :
    let f : Binding Expr := ⟨[], "f", [], Build.var "a", some (Build.parameters ["y"]), [], .unset⟩
    let t : Tree := ⟨.raw, .ofForm (.locals [Build.binding "lib" (Build.importCode "lib.libsonnet"),
      Build.binding "a" (Build.var "lib"), f] (Build.array [Build.var "f", Build.var "std"])), []⟩
    let lib := Build.parens (Build.importCode "lib.libsonnet")
    let t' : Tree := ⟨.raw, .ofForm (.locals
      [Build.binding "lib" (Build.importCode "lib.libsonnet"), Build.binding "a" lib,
        { f with body := lib }]
      (Build.array [Build.parens (Build.function ["y"] lib), Build.var "std"])), []⟩
    t.expand 8 = .ok t' ∧
      ∃ definition s : String → Option Expr,
        (∀ x body, definition x = some body ↔
          ∃ before b after, t.root.bindings = before ++ b :: after ∧ b.name = x ∧
            (∀ c ∈ after, c.name ≠ x) ∧ b.StandsFor body) ∧
        (∀ x, s x = (definition x).map (Expr.substitute s)) ∧
        t' = { t with root := t.root.substitute s } := by
  intro f t lib t'
  have h : t.expand 8 = .ok t' := by
    unfold t t' lib f
    rfl
  exact ⟨h, expand_eq_substitute h⟩

end Tree

end JsonnetTree
