import JsonnetTree.Proofs.Depth
import JsonnetTree.Proofs.Lowering

/-!
# The depth of a lowered tree

Lowering puts new expressions between an object and the expressions of its members: a function
around the body of a method, and a conditional around the condition of an assertion, with an error
around its message. What was one level below the object is then up to three levels below it. This
happens at every object on the way down, so the depth is at most three times what it was.
-/

namespace JsonnetTree

/-! ## How deep lowered members are -/

section

variable {n : Nat}

/-- What an assertion is lowered to puts its message two levels further down, and its condition
one. -/
theorem Expr.depth_assertion_lt {location : Location} {condition message : Expr}
    (hcondition : condition.depth + 3 ≤ n) (hmessage : message.depth + 3 ≤ n) :
    ({ Build.conditional condition (Build.boolean true) (some (Build.error message)) with
        location } : Expr).depth < n := by
  have htrue : (Build.boolean true).depth ≤ 0 :=
    depth_le_iff.mpr fun c hc => absurd hc List.not_mem_nil
  have herror : (Build.error message).depth ≤ n - 2 := by
    refine depth_le_iff.mpr fun c hc => ?_
    obtain rfl := List.mem_singleton.mp hc
    omega
  have hconditional : ({ Build.conditional condition (Build.boolean true)
      (some (Build.error message)) with location } : Expr).depth ≤ n - 1 := by
    refine depth_le_iff.mpr fun c hc => ?_
    have hc : c = condition ∨ c = Build.boolean true ∨ c = Build.error message := by
      simpa [children, Build.conditional, ofForm, Form.children, Form.operands,
        Form.deferred] using hc
    rcases hc with rfl | rfl | rfl <;> omega
  omega

namespace Member

variable {m : Member Expr} (hexprs : ∀ e ∈ m.exprs, e.depth + 3 ≤ n)

include hexprs

/-- The value of a member is put at most one level further down, below a function. -/
theorem depth_loweredValue_lt {value : Expr} (h : m.loweredValue = .ok value) :
    value.depth < n := by
  obtain ⟨body, hbody, ⟨-, rfl⟩ | ⟨params, hmethod, rfl⟩⟩ := loweredValue_eq_ok h
  · have hvalue := hexprs value (mem_exprs_of_eq_some (.inl hbody))
    omega
  · have hfunction : ({ Expr.ofForm (.function params body) with location := m.location } :
        Expr).depth ≤ n - 2 := by
      refine Expr.depth_le_iff.mpr fun c hc => ?_
      have hc : c ∈ params.fallbacks ∨ c = body := by
        simpa [Expr.children, Expr.ofForm, Form.children, Form.operands, Form.deferred] using hc
      have hmem : c ∈ m.exprs := by
        rcases hc with hc | rfl
        · exact mem_exprs_of_mem_fallbacks hmethod hc
        · exact mem_exprs_of_eq_some (.inl hbody)
      have hdepth := hexprs c hmem
      omega
    have hbelow := hexprs body (mem_exprs_of_eq_some (.inl hbody))
    omega

/-- The name of a field stays where it was, or is a string. -/
theorem depth_loweredName_lt {name : Expr} (hkind : m.kind = .fieldId ∨ m.hasNameExpr = true)
    (hpos : 0 < n) (h : m.loweredName = .ok name) : name.depth < n := by
  obtain ⟨id, -, -, rfl⟩ | ⟨e, hne, he, rfl⟩ := loweredName_eq_ok h
  · exact hpos
  · have hname := hexprs e (mem_exprs_of_eq_some (.inr (.inr ⟨hkind.resolve_left hne, he⟩)))
    have hfodder : ({ e with fodder := [] } : Expr).depth = e.depth := by
      rw [Expr.depth_eq, Expr.depth_eq e]
      rfl
    omega

/-- What is made of a member is no deeper than if its expressions were two levels further down. -/
theorem depth_lower_lt {owner : Location} {part : LoweredObject Expr} {c : Expr}
    (h : m.lower owner = .ok part) (hc : c ∈ (Form.loweredObject part).children) : c.depth < n := by
  obtain ⟨-, name, body, -, hbody, rfl⟩ | ⟨-, condition, hcondition, rfl⟩ |
    ⟨hkind, name, body, hname, hbody, rfl⟩ := lower_eq_ok_iff.mp h
  · obtain rfl : c = body := by
      simpa [Form.children, Form.operands, Form.deferred, LoweredObject.empty] using hc
    exact depth_loweredValue_lt hexprs hbody
  · obtain rfl := List.mem_singleton.mp hc
    have hcondition := hexprs condition (mem_exprs_of_eq_some (.inl hcondition))
    refine Expr.depth_assertion_lt hcondition ?_
    cases hmessage : m.expr3 with
    | none =>
      -- The message that is made where there is none needs the room that the condition has.
      have hstring : (Build.string defaultAssertMessage).depth = 0 := rfl
      rw [Option.getD_none]
      omega
    | some message => exact hexprs message (mem_exprs_of_eq_some (.inr (.inl hmessage)))
  · have hvalue := depth_loweredValue_lt hexprs hbody
    have hc : c = name ∨ c = body := by
      simpa [Form.children, Form.operands, Form.deferred, LoweredObject.empty] using hc
    rcases hc with rfl | rfl
    · exact depth_loweredName_lt hexprs hkind (by omega) hname
    · exact hvalue

end Member

end

/-! ## How deep lowered trees are -/

/-- A lowered expression is at most three times as deep as the expression. -/
theorem Expr.depth_lower_le {e l : Expr} (h : e.lower = .ok l) : l.depth ≤ 3 * e.depth := by
  induction e using induct_children generalizing l with
  | h e ih =>
    have hchildren : ∀ c ∈ e.children, c.lowered.depth + 3 ≤ 3 * e.depth := by
      intro c hc
      obtain ⟨c', hc'⟩ := (lower_eq_ok_iff.mp h).1 c hc
      have hlowered : c.lowered.depth ≤ 3 * c.depth := by
        rw [lowered_of_lower hc']
        exact ih c hc hc'
      have hless := depth_lt_of_mem_children hc
      omega
    rw [depth_le_iff]
    intro c hc
    obtain ⟨o, lo, hform, hlower, rfl⟩ | ⟨-, rfl⟩ := lower_cases h
    · obtain ⟨_, hmapped, part, hpart, hc⟩ := ObjectLiteral.exists_of_mem_children hlower hc
      obtain ⟨m, hm, rfl⟩ := List.mem_map.mp hmapped
      refine Member.depth_lower_lt (fun a ha => ?_) hpart hc
      rw [Member.exprs_mapChildren] at ha
      obtain ⟨old, hold, rfl⟩ := List.mem_map.mp ha
      have hmem : old ∈ e.children := by
        simpa [children, hform, Form.children, Form.operands, Form.deferred] using
          Member.mem_allExprs hm hold
      exact hchildren old hmem
    · rw [children_mapChildren] at hc
      obtain ⟨old, hmem, rfl⟩ := List.mem_map.mp hc
      have hdepth := hchildren old hmem
      omega

/-- If a tree passes the check of its depth with some limit, then the lowered tree passes it with
three times the limit. -/
theorem Tree.checkDepth_lower {t t' : Tree} {limit d : Nat} (hdepth : t.root.checkDepth d = .ok ())
    (h : t.lower limit = .ok t') : t'.root.checkDepth (3 * d) = .ok () := by
  obtain ⟨-, -, root, hroot, rfl⟩ := lower_eq_ok h
  have htriple : root.depth ≤ 3 * t.root.depth := Expr.depth_lower_le hroot
  have hle : t.root.depth ≤ d := Expr.checkDepth_eq_ok_iff.mp hdepth
  have hroom : root.depth ≤ 3 * d := by omega
  exact Expr.checkDepth_eq_ok_iff.mpr hroom

/-- An assertion without a message stands in the message of another one: the tree has two levels
below its root, and when it is lowered six and no fewer. -/
theorem Tree.checkDepth_lower_asserts :
    let inner := Build.object [Build.objectAssert (Build.var "x") none]
    let t : Tree := ⟨.raw, Build.object [Build.objectAssert (Build.var "y") (some inner)], []⟩
    let check (name : String) (message : Expr) :=
      Build.conditional (Build.var name) (Build.boolean true) (some (Build.error message))
    let inner' := Build.loweredObject [check "x" (Build.string defaultAssertMessage)] [] []
    let t' : Tree := ⟨.lowered, Build.loweredObject [check "y" inner'] [] [], []⟩
    t.root.checkDepth 2 = .ok () ∧ t.lower 2 = .ok t' ∧ t'.root.checkDepth (3 * 2) = .ok () ∧
      t'.root.checkDepth 5 = .error (.depthExceeded 5 .unset) := by
  intro inner t check inner' t'
  have hdepth : t.root.checkDepth 2 = .ok () := by decide +kernel
  have hlower : t.lower 2 = .ok t' := by
    unfold t t' inner' check inner
    rfl
  have hless : t'.root.checkDepth 5 = .error (.depthExceeded 5 .unset) := by decide +kernel
  exact ⟨hdepth, hlower, checkDepth_lower hdepth hlower, hless⟩

end JsonnetTree
