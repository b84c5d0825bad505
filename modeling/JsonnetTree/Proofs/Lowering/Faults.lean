import JsonnetTree.Proofs.Lowering.Findings

/-!
# Members that cannot be lowered

Lowering fails only where a member of an object literal lacks a part that its kind needs. All such
faults of an expression can be listed in the order in which lowering comes to them (`Expr.faults`):
objects inside others come first, the members of an object stand in the order of the source, and a
name comes before a value. Lowering reports the first of them (`Expr.failsFirst_lower`).
-/

namespace JsonnetTree

variable {α β : Type}

/-! ## Lists -/

/-- The first item of lists that are put together is the first one of the first list that is not
empty. -/
theorem head?_flatMap_eq_some_iff {f : α → List β} {p : α → Bool}
    (hp : ∀ a, p a = true ↔ f a ≠ []) {as : List α} {b : β} :
    (as.flatMap f).head? = some b ↔ ∃ a, as.find? p = some a ∧ (f a).head? = some b := by
  rw [List.head?_flatMap]
  induction as with
  | nil => simp
  | cons a as ih =>
    rw [List.findSome?_cons, List.find?_cons]
    cases hf : f a with
    | nil =>
      have hpa : p a = false := Bool.eq_false_iff.mpr fun hpa => (hp a).mp hpa hf
      simpa [hpa] using ih
    | cons first rest =>
      have hpa : p a = true := (hp a).mpr (by simp [hf])
      simp [hpa, hf]

/-! ## Faults -/

namespace Member

/-- The name of a part, if the part is missing. -/
def absent (name : String) (part : Option β) : List String :=
  if part.isSome then [] else [name]

/-- The parts that a member needs and does not have, its name before its value. -/
def lacking (m : Member α) : List String :=
  match m.kind with
  | .localBind => absent "name" m.id ++ absent "value" m.expr2
  | .assert => absent "condition" m.expr2
  | .fieldId => absent "name" m.id ++ absent "value" m.expr2
  | .fieldStr | .fieldExpr => absent "name" m.expr1 ++ absent "value" m.expr2

/-- A member does not have all parts that it needs. -/
def IsMalformed (m : Member α) : Prop :=
  m.lacking ≠ []

instance (m : Member α) : Decidable m.IsMalformed :=
  inferInstanceAs (Decidable (_ ≠ _))

/-- What can be reported of a member. -/
def faults (m : Member α) : List LowerError :=
  m.lacking.map (.missingPart · m.location)

/-- A change of the expressions of a member takes away none of them. -/
theorem faults_mapChildren (child other : α → β) (m : Member α) :
    (m.mapChildren child other).faults = m.faults := by
  have habsent {γ δ : Type} (name : String) (f : γ → δ) (part : Option γ) :
      absent name (part.map f) = absent name part := by
    cases part <;> rfl
  simp only [faults, lacking, mapChildren, habsent]

/-- Only malformed members have faults. -/
theorem faults_ne_nil_iff {m : Member α} : m.faults ≠ [] ↔ m.IsMalformed := by
  rw [faults, IsMalformed, ne_eq, List.map_eq_nil_iff]

end Member

namespace Expr

/-- An expression and all below it, children before parents. -/
def postorder : Expr → List Expr :=
  fold fun e below => below.flatten ++ [e]

/-- An object literal has a malformed member. -/
def HasMalformed (e : Expr) : Prop :=
  ∃ m ∈ e.membersHere, m.IsMalformed

instance (e : Expr) : Decidable e.HasMalformed :=
  inferInstanceAs (Decidable (∃ m ∈ _, _))

/-- What can be reported of the members of an object literal. -/
def faultsHere (e : Expr) : List LowerError :=
  e.membersHere.flatMap Member.faults

/-- What can be reported of all members that can be reached, in the order in which lowering comes to
them. -/
def faults (e : Expr) : List LowerError :=
  e.postorder.flatMap faultsHere

variable {e a : Expr} {err : LowerError}

/-- What the children reach comes first, child by child, and then the parent. -/
theorem postorder_eq (e : Expr) : e.postorder = e.children.flatMap postorder ++ [e] := by
  rw [postorder, fold_eq]
  rfl

/-- The listed expressions are those that can be reached. -/
theorem mem_postorder_iff : a ∈ e.postorder ↔ e.Reaches a := by
  induction e using induct_children with
  | h e ih =>
    rw [postorder_eq, List.mem_append, List.mem_flatMap, List.mem_singleton, or_comm, reaches_iff]
    refine or_congr_right (exists_congr fun c => and_congr_right fun hc => ?_)
    exact ih c hc

/-- The faults below the children come first, child by child, and then those of the expression. -/
theorem faults_eq (e : Expr) : e.faults = e.children.flatMap faults ++ e.faultsHere := by
  rw [faults, postorder_eq, List.flatMap_append, List.flatMap_assoc, List.flatMap_singleton]
  rfl

/-- The members of an object literal are changed with its children. -/
theorem faultsHere_mapChildren (f : Expr → Expr) (e : Expr) :
    (e.mapChildren f).faultsHere = e.faultsHere := by
  have hmembers : (e.mapChildren f).membersHere = e.membersHere.map (·.mapChildren f id) := by
    unfold membersHere mapChildren
    cases e.form <;> rfl
  simp only [faultsHere, hmembers, List.flatMap_map, Member.faults_mapChildren]

/-- Only object literals with a malformed member have faults of their own. -/
theorem faultsHere_ne_nil_iff : e.faultsHere ≠ [] ↔ e.HasMalformed := by
  simp [faultsHere, HasMalformed, List.flatMap_eq_nil_iff, ← Member.faults_ne_nil_iff]

end Expr

/-! ## Lowering comes to the faults in order -/

open Outcome

namespace Member

variable (m : Member Expr)

/-- Taking a part fails if it is missing. -/
theorem failsFirst_need {β : Type} (part : Option β) (name : String) :
    FailsFirst ((absent name part).map (.missingPart · m.location)) (m.need part name) := by
  cases part with
  | some a => exact failsFirst_ok a
  | none => exact failsFirst_error _

/-- Lowering the value of a member fails if it is missing. -/
theorem failsFirst_loweredValue :
    FailsFirst ((absent "value" m.expr2).map (.missingPart · m.location)) m.loweredValue := by
  unfold loweredValue
  cases m.method with
  | none => exact (m.failsFirst_need m.expr2 "value").map fun body => body
  | some params => exact (m.failsFirst_need m.expr2 "value").map _

/-- Lowering a member fails with its first fault. -/
theorem failsFirst_lower (owner : Location) : FailsFirst m.faults (m.lower owner) := by
  have hid := m.failsFirst_need m.id "name"
  have hname := m.failsFirst_need m.expr1 "name"
  have hvalue := m.failsFirst_loweredValue
  cases hkind : m.kind with
  | localBind =>
    simp only [faults, lacking, lower, hkind, List.map_append]
    exact hid.bind fun name _ => hvalue.map _
  | assert =>
    simp only [faults, lacking, lower, hkind]
    exact (m.failsFirst_need m.expr2 "condition").map _
  | fieldId =>
    simp only [faults, lacking, lower, loweredName, hkind, List.map_append]
    exact (hid.map _).bind fun name _ => hvalue.map _
  | fieldStr | fieldExpr =>
    simp only [faults, lacking, lower, loweredName, hkind, List.map_append]
    exact (hname.map _).bind fun name _ => hvalue.map _

end Member

/-- Lowering an object literal fails with the first fault of its members. -/
theorem ObjectLiteral.failsFirst_lower (o : ObjectLiteral Expr) (owner : Location) :
    FailsFirst (o.members.flatMap Member.faults) (o.lower owner) :=
  (FailsFirst.mapM fun m _ => m.failsFirst_lower owner).map _

namespace Expr

/-- Lowering an expression itself fails with the first fault of its members. -/
theorem failsFirst_lowerHere (e : Expr) : FailsFirst e.faultsHere e.lowerHere := by
  unfold faultsHere membersHere lowerHere
  cases e.form with
  | object o => exact (o.failsFirst_lower e.location).map _
  | _ => exact failsFirst_ok e

/-- Lowering an expression fails with the first fault. -/
theorem failsFirst_lower (e : Expr) : FailsFirst e.faults e.lower := by
  induction e using induct_children with
  | h e ih =>
    rw [lower_eq, faults_eq]
    refine (FailsFirst.mapM ih).bind fun new hnew => ?_
    have hmap : new = e.children.map lowered :=
      eq_map_of_forall₂ ((mapM_eq_ok hnew).imp fun c c' hc => (lowered_of_lower hc).symm)
    rw [hmap, withChildren_map, ← faultsHere_mapChildren lowered e]
    exact failsFirst_lowerHere _

end Expr

/-! ## The first fault -/

/-- The first fault of a member is that it lacks the first part that it lacks. -/
theorem Member.head?_faults_eq_some_iff {m : Member α} {part : String} {location : Location} :
    m.faults.head? = some (.missingPart part location) ↔
      m.lacking.head? = some part ∧ m.location = location := by
  rw [faults, List.head?_map, Option.map_eq_some_iff]
  simp

namespace Expr

variable {e a : Expr} {err : LowerError}

/-- The first member with a property is found in an object literal. -/
theorem find?_membersHere_eq_some_iff {p : Member Expr → Bool} {m : Member Expr} :
    e.membersHere.find? p = some m ↔ ∃ o, e.form = .object o ∧ o.members.find? p = some m := by
  unfold membersHere
  split
  next o hform => simp [hform]
  next hform =>
    constructor
    · intro h
      cases h
    · rintro ⟨o, ho, -⟩
      exact absurd ho (hform o)

/-- The first fault is that of the first malformed member of the first object literal that has
one. -/
theorem head?_faults_eq_some_iff {part : String} {location : Location} :
    e.faults.head? = some (.missingPart part location) ↔
      ∃ a o m, e.postorder.find? (·.HasMalformed) = some a ∧ a.form = .object o ∧
        o.members.find? (·.IsMalformed) = some m ∧ m.lacking.head? = some part ∧
        m.location = location := by
  have hobject (a : Expr) : decide a.HasMalformed = true ↔ a.faultsHere ≠ [] := by
    rw [decide_eq_true_iff, faultsHere_ne_nil_iff]
  have hmember (m : Member Expr) : decide m.IsMalformed = true ↔ m.faults ≠ [] := by
    rw [decide_eq_true_iff, Member.faults_ne_nil_iff]
  rw [faults, head?_flatMap_eq_some_iff hobject]
  simp only [faultsHere, head?_flatMap_eq_some_iff hmember, find?_membersHere_eq_some_iff,
    Member.head?_faults_eq_some_iff]
  constructor
  · rintro ⟨a, ha, m, ⟨o, ho, hm⟩, hpart⟩
    exact ⟨a, o, m, ha, ho, hm, hpart⟩
  · rintro ⟨a, o, m, ha, ho, hm, hpart⟩
    exact ⟨a, ha, m, ⟨o, ho, hm⟩, hpart⟩

/-- All faults are missing parts. -/
theorem eq_missingPart_of_mem_faults (h : err ∈ e.faults) :
    ∃ part location, err = .missingPart part location := by
  obtain ⟨a, -, ha⟩ := List.mem_flatMap.mp h
  obtain ⟨m, -, hm⟩ := List.mem_flatMap.mp ha
  obtain ⟨part, -, rfl⟩ := List.mem_map.mp hm
  exact ⟨part, m.location, rfl⟩

/-- Lowering an expression fails only with a missing part. -/
theorem eq_missingPart_of_lower (h : e.lower = .error err) :
    ∃ part location, err = .missingPart part location := by
  have hhead : e.faults.head? = some err := (e.failsFirst_lower err).mp h
  exact eq_missingPart_of_mem_faults (List.mem_of_mem_head? hhead)

/-- There are faults if and only if a malformed member can be reached. -/
theorem faults_ne_nil_iff :
    e.faults ≠ [] ↔
      ∃ a o m, e.Reaches a ∧ a.form = .object o ∧ m ∈ o.members ∧ m.IsMalformed := by
  have hfaults : e.faults ≠ [] ↔ ∃ a ∈ e.postorder, a.HasMalformed := by
    simp [faults, List.flatMap_eq_nil_iff, ← faultsHere_ne_nil_iff]
  rw [hfaults]
  constructor
  · rintro ⟨a, ha, m, hm, hmalformed⟩
    unfold membersHere at hm
    split at hm
    next o hform => exact ⟨a, o, m, mem_postorder_iff.mp ha, hform, hm, hmalformed⟩
    next => cases hm
  · rintro ⟨a, o, m, ha, hform, hm, hmalformed⟩
    refine ⟨a, mem_postorder_iff.mpr ha, m, ?_, hmalformed⟩
    rwa [membersHere, hform]

end Expr

namespace Tree

variable {t : Tree} {limit : Nat}

/-- Lowering a raw tree within the limit fails with its first fault. -/
theorem failsFirst_lower (hraw : t.shape = .raw) (hdepth : t.root.checkDepth limit = .ok ()) :
    FailsFirst t.root.faults (t.lower limit) := by
  rw [lower, if_neg (not_not.mpr hraw), hdepth]
  exact t.root.failsFirst_lower.map _

/-- Lowering a raw tree that passes the check of its depth fails if and only if a malformed member
of an object literal can be reached. It reports the first such member of the first object literal
that has one, where objects inside others come first, with the first part that the member lacks. -/
theorem lower_missingPart (hraw : t.shape = .raw) (hdepth : t.root.checkDepth limit = .ok ()) :
    ((∃ part location, t.lower limit = .error (.missingPart part location)) ↔
        ∃ e o m, t.root.Reaches e ∧ e.form = .object o ∧ m ∈ o.members ∧ m.IsMalformed) ∧
      (∀ part location, t.lower limit = .error (.missingPart part location) ↔
        ∃ e o m, t.root.postorder.find? (·.HasMalformed) = some e ∧ e.form = .object o ∧
          o.members.find? (·.IsMalformed) = some m ∧ m.lacking.head? = some part ∧
          m.location = location) ∧
      ((∃ t', t.lower limit = .ok t') ∨
        ∃ part location, t.lower limit = .error (.missingPart part location)) := by
  have hfails := failsFirst_lower hraw hdepth
  refine ⟨?_, fun part location => (hfails _).trans Expr.head?_faults_eq_some_iff, ?_⟩
  · rw [← Expr.faults_ne_nil_iff]
    constructor
    · rintro ⟨part, location, h⟩ hnil
      rw [hfails, hnil] at h
      cases h
    · intro hne
      obtain ⟨err, rest, hfaults⟩ := List.exists_cons_of_ne_nil hne
      obtain ⟨part, location, rfl⟩ :=
        Expr.eq_missingPart_of_mem_faults (hfaults ▸ List.mem_cons_self)
      exact ⟨part, location, (hfails _).mpr (by rw [hfaults]; rfl)⟩
  · cases hlower : t.lower limit with
    | ok t' => exact .inl ⟨t', rfl⟩
    | error err =>
      have hhead : t.root.faults.head? = some err := (hfails err).mp hlower
      obtain ⟨part, location, rfl⟩ :=
        Expr.eq_missingPart_of_mem_faults (List.mem_of_mem_head? hhead)
      exact .inr ⟨part, location, rfl⟩

/-- An assertion without a condition comes before a field whose value is an object. A local binding
in that object has no value, and before it stands a field without a name and a value: the missing
name of that field is reported. -/
theorem lower_missingPart_nested :
    let place (line : UInt32) : Location := ⟨"a.jsonnet", ⟨line, 1⟩, ⟨line, 9⟩⟩
    let field : Member Expr := { Build.member .fieldStr .inherit with location := place 3 }
    let bind : Member Expr :=
      { Build.member .localBind .inherit with id := some "x", location := place 4 }
    let check : Member Expr := { Build.member .assert .inherit with location := place 1 }
    let inner := Build.object [Build.fieldId "a" .inherit Build.null, field, bind]
    let t : Tree := ⟨.raw, Build.object [check, Build.fieldId "b" .inherit inner], []⟩
    t.shape = .raw ∧ t.root.checkDepth 2 = .ok () ∧
      t.lower 2 = .error (.missingPart "name" (place 3)) := by
  intro place field bind check inner t
  have hraw : t.shape = .raw := rfl
  have hdepth : t.root.checkDepth 2 = .ok () := by decide +kernel
  have hobject : t.root.postorder.find? (·.HasMalformed) = some inner := by
    unfold t inner check field bind place
    rfl
  have hmember : [Build.fieldId "a" .inherit Build.null, field, bind].find? (·.IsMalformed) =
      some field := rfl
  obtain ⟨-, hfirst, -⟩ := lower_missingPart hraw hdepth
  have hlower : t.lower 2 = .error (.missingPart "name" (place 3)) :=
    (hfirst _ _).mpr ⟨inner, _, field, hobject, rfl, hmember, rfl, rfl⟩
  exact ⟨hraw, hdepth, hlower⟩

end Tree

end JsonnetTree
