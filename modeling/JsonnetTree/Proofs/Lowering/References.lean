import JsonnetTree.Proofs.Lowering.Findings

/-!
# References in lowered trees

A lowered tree refers to the same variables, imports the same files and binds the same names as the
tree it was made from, each as often and at the same location (`Tree.references_lower_perm`). Only
the order changes, with that of the members of objects.
-/

namespace JsonnetTree

/-- What an expression refers to or binds by name, and where. -/
inductive Reference where
  | var (name : String) (location : Location)
  | importCode (file : Expr) (location : Location)
  | importText (file : Expr) (location : Location)
  /-- The names that a local expression binds, in order. -/
  | locals (names : List String) (location : Location)

namespace Expr

/-- The reference that an expression itself is, if it is one. -/
def referencesHere (e : Expr) : List Reference :=
  match e.form with
  | .var name => [.var name e.location]
  | .importCode file => [.importCode file e.location]
  | .importText file => [.importText file e.location]
  | .locals binds _ => [.locals (binds.map (·.name)) e.location]
  | _ => []

/-- All references in an expression, parents before children. -/
def references (e : Expr) : List Reference := e.findings referencesHere

/-- Lowering makes no references. -/
theorem referencesHere_outlivesLowering : OutlivesLowering referencesHere where
  made {e} h := by
    unfold referencesHere
    cases hform : e.form with
    | var name => simp [hform, Form.isMade] at h
    | importCode file => simp [hform, Form.isMade] at h
    | importText file => simp [hform, Form.isMade] at h
    | locals binds body => simp [hform, Form.isMade] at h
    | _ => rfl
  fodder _ _ := rfl

/-- The reference that an expression is does not depend on its children: the file of an import is
not one of them, and neither are the names that are bound. -/
theorem referencesHere_mapChildren (e : Expr) (f : Expr → Expr) :
    (e.mapChildren f).referencesHere = e.referencesHere := by
  unfold referencesHere mapChildren
  cases e.form with
  | locals binds body => simp [Form.mapChildren, Form.map, Binding.map, Function.comp_def]
  | _ => rfl

end Expr

namespace Tree

variable {t lowered : Tree} {limit : Nat}

/-- Lowering a tree neither loses nor invents references: a lowered tree has those of the tree, in
another order. -/
theorem references_lower_perm
    (hmembers : ∀ e o, t.root.Reaches e → e.form = .object o → ∀ m ∈ o.members,
      (m.kind ≠ .assert → m.expr3 = none) ∧ (m.kind = .assert → m.method = none))
    (h : t.lower limit = .ok lowered) : lowered.root.references.Perm t.root.references := by
  obtain ⟨-, -, root, hroot, rfl⟩ := lower_eq_ok h
  refine Expr.findings_lower_perm Expr.referencesHere_outlivesLowering (fun e o hform => ?_)
    (fun e _ => e.referencesHere_mapChildren Expr.lowered) hmembers hroot
  rw [Expr.referencesHere, hform]

/-- The references in an object with a method whose parameter has a default, an assertion with a
message, and a field with a computed name. When the object is lowered, names come first and the
assertion last. -/
theorem references_lower_perm_members :
    let place (line : UInt32) : Location := ⟨"a", ⟨line, 1⟩, ⟨line, 2⟩⟩
    let on (line : UInt32) (form : Form Expr) : Expr := ⟨place line, [], form⟩
    let file := Build.string "b"
    let parameter : Parameter Expr := ⟨[], "p", [], some (on 2 (.var "x")), [], .unset⟩
    let t : Tree := ⟨.raw, Build.object [
      Build.objectAssert (on 1 (.var "c")) (some (on 1 (.importText file))),
      { Build.fieldId "f" .inherit (on 3 (.importCode file)) with
        method := some ⟨[], [parameter], false, []⟩ },
      Build.fieldExpr (on 4 (.locals [Build.binding "u" Build.null, Build.binding "v" Build.null]
        (on 5 (.var "u")))) .inherit (on 6 (.var "c"))], []⟩
    let asserted : List Reference := [.var "c" (place 1), .importText file (place 1)]
    let method : List Reference := [.var "x" (place 2), .importCode file (place 3)]
    let name : List Reference := [.locals ["u", "v"] (place 4), .var "u" (place 5)]
    let value : List Reference := [.var "c" (place 6)]
    (∀ e o, t.root.Reaches e → e.form = .object o → ∀ m ∈ o.members,
        (m.kind ≠ .assert → m.expr3 = none) ∧ (m.kind = .assert → m.method = none)) ∧
      t.root.references = asserted ++ method ++ name ++ value ∧
      ∃ lowered, t.lower 9 = .ok lowered ∧
        lowered.root.references = name ++ method ++ value ++ asserted ∧
        lowered.root.references.Perm t.root.references := by
  intro place on file parameter t asserted method name value
  have hmembers : t.root.IsRegular := by
    have hall : ((t.root.preorder.flatMap Expr.membersHere).all fun m => m.IsRegular) = true := by
      decide +kernel
    exact Expr.isRegular_iff.mpr fun m hm => by simpa using List.all_eq_true.mp hall m hm
  let lowered : Tree := ⟨.lowered, t.root.lowered, []⟩
  have hlower : t.lower 9 = .ok lowered :=
    lower_of_root rfl (by decide +kernel) (by decide +kernel)
  have hreferences : t.root.references = asserted ++ method ++ name ++ value := by
    unfold t asserted method name value parameter file on place
    rfl
  have hafter : lowered.root.references = name ++ method ++ value ++ asserted := by
    unfold lowered t asserted method name value parameter file on place
    rfl
  exact ⟨hmembers, hreferences, lowered, hlower, hafter, references_lower_perm hmembers hlower⟩

end Tree

end JsonnetTree
