import JsonnetTree.Proofs.Expansion.Basic
import JsonnetTree.Proofs.Lowering.Findings

/-!
# What a lowered expression binds

Lowering puts the children of objects in another order, but it neither adds nor drops a local
binding (`Expr.bindings_lower_perm`). Where no name is bound twice the order does not matter, and
the definitions of a lowered expression are those of the expression, lowered
(`Expr.definition?_of_lower`).
-/

namespace JsonnetTree

/-! ## The bindings of a lowered expression -/

namespace Expr

variable {e l : Expr}

/-- The bindings of an expression itself after a change of its children. -/
theorem bindingsHere_mapChildren (f : Expr → Expr) :
    (e.mapChildren f).bindingsHere = e.bindingsHere.map (·.map f) := by
  unfold bindingsHere mapChildren
  cases e.form <;> rfl

/-- Lowering makes no local expressions. -/
theorem bindingsHere_outlivesLowering : OutlivesLowering bindingsHere where
  made {e} h := by
    unfold bindingsHere
    cases hform : e.form with
    | locals binds body => simp [hform, Form.isMade] at h
    | _ => rfl
  fodder _ _ := rfl

/-- The bindings of a lowered expression are the lowered bindings of the expression, in another
order. -/
theorem bindings_lower_perm (hregular : e.IsRegular) (h : e.lower = .ok l) :
    l.bindings.Perm (e.bindings.map (·.map lowered)) := by
  rw [l.bindings_eq_flatMap, e.bindings_eq_flatMap, List.map_flatMap]
  refine findings_lower_perm bindingsHere_outlivesLowering (fun a o hform => ?_)
    (fun a _ => bindingsHere_mapChildren lowered) hregular h
  rw [bindingsHere, hform, List.map_nil]

/-! ## What is captured in a lowered expression -/

variable {x : String}

/-- An expression is an import of code if and only if it is one after it is lowered. -/
theorem form_eq_importCode_iff_of_lower {file : Expr} (h : e.lower = .ok l) :
    l.form = .importCode file ↔ e.form = .importCode file := by
  obtain ⟨o, lo, hform, -, rfl⟩ | ⟨-, rfl⟩ := lower_cases h
  · simp [hform]
  · rw [mapChildren]
    cases e.form <;> simp [Form.mapChildren, Form.map]

/-- Parentheses are lowered with what stands in them. -/
theorem lower_parens (h : e.lower = .ok l) : (Build.parens e).lower = .ok (Build.parens l) := by
  have hlower : (Build.parens e).lower = .ok (Build.parens e.lowered) := by
    refine lower_of_other nofun fun c hc => ?_
    obtain rfl := List.mem_singleton.mp hc
    exact ⟨l, h⟩
  rwa [lowered_of_lower h] at hlower

/-- What is captured from a binding is lowered to what is captured from the lowered binding. -/
theorem lower_captured {b : Binding Expr} (h : ∀ c ∈ b.exprs, ∃ c', c.lower = .ok c') :
    b.captured.lower = .ok (b.map lowered).captured := by
  obtain ⟨body, hbody⟩ := h b.body (by simp [Binding.exprs])
  have hmap : (b.map lowered).body = body := lowered_of_lower hbody
  have hstands : b.StandsFor b.captured := Binding.captured_eq_iff.mp rfl
  generalize b.captured = captured at hstands ⊢
  cases hstands with
  | @function params hparams =>
    have hfunction : (ofForm (.function params b.body)).lower =
        .ok (ofForm (.function (params.map lowered) b.body.lowered)) := by
      refine lower_of_other (by simp [ofForm]) fun c hc => h c ?_
      simpa [children, ofForm, Form.children, Form.operands, Form.deferred, Binding.exprs, hparams,
        Parameters.fallbacks?] using hc
    have hmapped : (b.map lowered).params = some (params.map lowered) := by
      simp [Binding.map, hparams]
    rw [lower_parens hfunction, Binding.captured_eq_iff.mpr (.function hmapped)]
    rfl
  | @importCode file hparams hform =>
    have hmapped : (b.map lowered).params = none := by simp [Binding.map, hparams]
    have hform' : (b.map lowered).body.form = .importCode file := by
      rw [hmap, form_eq_importCode_iff_of_lower hbody, hform]
    rw [lower_parens hbody, Binding.captured_eq_iff.mpr (.importCode hmapped hform'), hmap]
  | plain hparams hform =>
    have hmapped : (b.map lowered).params = none := by simp [Binding.map, hparams]
    have hform' : ∀ file, (b.map lowered).body.form ≠ .importCode file := by
      intro file
      rw [hmap, ne_eq, form_eq_importCode_iff_of_lower hbody]
      exact hform file
    rw [hbody, Binding.captured_eq_iff.mpr (.plain hmapped hform'), hmap]

/-- Where no name is bound twice, a name is defined by its binding. -/
theorem definition?_eq_some_iff_of_nodup (hnames : (e.bindings.map (·.name)).Nodup) {body : Expr} :
    e.definition? x = some body ↔ ∃ b ∈ e.bindings, b.name = x ∧ b.captured = body := by
  refine ⟨exists_of_definition?, ?_⟩
  rintro ⟨b, hb, rfl, rfl⟩
  cases hdefinition : e.definition? b.name with
  | none => exact absurd rfl (definition?_eq_none_iff.mp hdefinition b hb)
  | some body =>
    obtain ⟨b', hb', hname, rfl⟩ := exists_of_definition? hdefinition
    rw [List.inj_on_of_nodup_map hnames hb' hb hname]

/-- Where no name is bound twice, the definitions in a lowered expression are the lowered
definitions. -/
theorem definition?_of_lower (hregular : e.IsRegular) (hnames : (e.bindings.map (·.name)).Nodup)
    (h : e.lower = .ok l) (x : String) : l.definition? x = (e.definition? x).map lowered := by
  have hperm := bindings_lower_perm hregular h
  have hnames' : (l.bindings.map (·.name)).Nodup := by
    rw [(hperm.map _).nodup_iff, List.map_map]
    exact hnames
  have hlower {b : Binding Expr} (hb : b ∈ e.bindings) :
      b.captured.lowered = (b.map lowered).captured :=
    lowered_of_lower (lower_captured fun c hc => (reaches_of_mem_exprs hb hc).exists_lower h)
  ext body
  rw [definition?_eq_some_iff_of_nodup hnames', Option.map_eq_some_iff]
  simp only [definition?_eq_some_iff_of_nodup hnames, hperm.mem_iff, List.mem_map]
  constructor
  · rintro ⟨_, ⟨b, hb, rfl⟩, rfl, rfl⟩
    exact ⟨b.captured, ⟨b, hb, rfl, rfl⟩, hlower hb⟩
  · rintro ⟨_, ⟨b, hb, rfl, rfl⟩, rfl⟩
    exact ⟨b.map lowered, ⟨b, hb, rfl⟩, rfl, (hlower hb).symm⟩

/-- The definitions in an expression are lowered with it. -/
theorem exists_lower_definition (h : e.lower = .ok l) {body : Expr}
    (hbody : e.definition? x = some body) : ∃ body', body.lower = .ok body' := by
  obtain ⟨b, hb, -, rfl⟩ := exists_of_definition? hbody
  exact ⟨_, lower_captured fun c hc => (reaches_of_mem_exprs hb hc).exists_lower h⟩

/-- A definition has no fodder if nothing has that can be reached. -/
theorem fodder_definition (h : ∀ a, e.Reaches a → a.fodder = []) {body : Expr}
    (hbody : e.definition? x = some body) : body.fodder = [] := by
  obtain ⟨b, hb, -, hcaptured⟩ := exists_of_definition? hbody
  cases Binding.captured_eq_iff.mp hcaptured with
  | function => rfl
  | importCode => rfl
  | plain => exact h b.body (reaches_of_mem_exprs hb (by simp [Binding.exprs]))

end Expr

end JsonnetTree
