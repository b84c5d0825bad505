import JsonnetTree.Proofs.Expr.Children
import JsonnetTree.Proofs.Expr.MapChildren
import JsonnetTree.Proofs.Expr.Reach
import JsonnetTree.Proofs.Expr.Search
import JsonnetTree.Proofs.Outcome

/-!
# Expansion with enough room

What an expression is expanded to does not depend on the room, as long as there is enough of it
(`Expr.expandWithin_mono`). So expansion is a relation of expressions, `Expr.Expands`. An expression
expands if and only if the definitions of all names that it mentions do
(`Expr.exists_expands_iff`). Nothing in an expanded expression is new, except for what is put around
functions and imports (`Expr.exists_source_of_expanded`).
-/

namespace JsonnetTree

/-! ## Bindings and definitions -/

/-- What stands for a binding: a function or an import in parentheses, or else just the body. -/
inductive Binding.StandsFor (b : Binding Expr) : Expr → Prop
  | function {params : Parameters Expr} (hparams : b.params = some params) :
      StandsFor b (Build.parens (.ofForm (.function params b.body)))
  | importCode {file : Expr} (hparams : b.params = none) (hform : b.body.form = .importCode file) :
      StandsFor b (Build.parens b.body)
  | plain (hparams : b.params = none) (hform : ∀ file, b.body.form ≠ .importCode file) :
      StandsFor b b.body

/-- What is captured from a binding is what stands for it. -/
theorem Binding.captured_eq_iff {b : Binding Expr} {body : Expr} :
    b.captured = body ↔ b.StandsFor body := by
  have hcaptured : b.StandsFor b.captured := by
    unfold Binding.captured
    split
    next hparams => exact .function hparams
    next hparams hform => exact .importCode hparams hform
    next hparams hform => exact .plain hparams hform
  constructor
  · rintro rfl
    exact hcaptured
  · intro h
    unfold Binding.captured
    cases h with
    | function hparams => rw [hparams]
    | importCode hparams hform => rw [hparams, hform]
    | plain hparams hform =>
      split
      next hsome =>
        rw [hparams] at hsome
        cases hsome
      next file _ hfile => exact absurd hfile (hform file)
      next => rfl

namespace Expr

/-- The bindings of a local expression. -/
def bindingsHere (e : Expr) : List (Binding Expr) :=
  match e.form with
  | .locals binds _ => binds
  | _ => []

/-- The bindings of all local expressions that can be reached: those of an expression itself come
before those of its children. -/
def bindings : Expr → List (Binding Expr) :=
  Expr.fold fun e below => e.bindingsHere ++ below.flatten

/-- What a name is replaced by. Its last binding counts. -/
def definition? (e : Expr) (x : String) : Option Expr :=
  (e.bindings.reverse.find? (·.name == x)).map (·.captured)

/-- A variable of this name can be reached. -/
def Mentions (e : Expr) (x : String) : Prop :=
  ∃ v, e.Reaches v ∧ v.form = .var x

variable {e e' a body : Expr} {x : String}

/-- The bindings of an expression come first, then those of its children, child by child. -/
theorem bindings_eq (e : Expr) : e.bindings = e.bindingsHere ++ e.children.flatMap bindings := by
  rw [bindings, fold_eq]
  rfl

/-- The bindings are met where the expressions are listed. -/
theorem bindings_eq_flatMap (e : Expr) : e.bindings = e.preorder.flatMap bindingsHere := by
  induction e using induct_children with
  | h e ih =>
    rw [bindings_eq, preorder_eq, List.flatMap_cons, List.flatMap_assoc]
    exact congrArg _ (List.flatMap_congr ih)

/-- The captured names and expressions are those of the bindings, in the same order. -/
theorem captured_eq_map (e : Expr) : e.captured = e.bindings.map fun b => (b.name, b.captured) := by
  have hhere (a : Expr) : a.capturedHere = a.bindingsHere.map fun b => (b.name, b.captured) := by
    unfold capturedHere bindingsHere
    cases a.form <;> rfl
  simp only [captured, bindings_eq_flatMap, hhere, List.map_flatMap]

/-- The replacement of a name is its definition. -/
theorem lookup_captured (e : Expr) (x : String) : e.captured.reverse.lookup x = e.definition? x := by
  rw [captured_eq_map, ← List.map_reverse, definition?]
  induction e.bindings.reverse with
  | nil => rfl
  | cons b bs ih =>
    by_cases hb : b.name = x
    · simp [hb]
    · have hne : (x == b.name) = false := by simpa using Ne.symm hb
      simpa [hb, List.lookup_cons, hne] using ih

/-- The bindings are those of the local expressions that can be reached. -/
theorem mem_bindings_iff {b : Binding Expr} :
    b ∈ e.bindings ↔ ∃ a binds body, e.Reaches a ∧ a.form = .locals binds body ∧ b ∈ binds := by
  simp only [bindings_eq_flatMap, List.mem_flatMap, mem_preorder_iff]
  constructor
  · rintro ⟨a, ha, hb⟩
    unfold bindingsHere at hb
    split at hb
    next binds body hform => exact ⟨a, binds, body, ha, hform, hb⟩
    next => cases hb
  · rintro ⟨a, binds, body, ha, hform, hb⟩
    exact ⟨a, ha, by rw [bindingsHere, hform]; exact hb⟩

/-- The definition of a name is captured from one of its bindings. -/
theorem exists_of_definition? (h : e.definition? x = some body) :
    ∃ b ∈ e.bindings, b.name = x ∧ b.captured = body := by
  obtain ⟨b, hb, rfl⟩ := Option.map_eq_some_iff.mp h
  have hname := List.find?_some hb
  exact ⟨b, List.mem_reverse.mp (List.mem_of_find?_eq_some hb), by simpa using hname, rfl⟩

/-- A name without a definition has no binding. -/
theorem definition?_eq_none_iff : e.definition? x = none ↔ ∀ b ∈ e.bindings, b.name ≠ x := by
  simp [definition?]

/-- The expressions of a binding can be reached. -/
theorem reaches_of_mem_exprs {b : Binding Expr} {c : Expr} (hb : b ∈ e.bindings)
    (hc : c ∈ b.exprs) : e.Reaches c := by
  obtain ⟨a, binds, body, ha, hform, hmem⟩ := mem_bindings_iff.mp hb
  refine ha.trans (.child ?_ (.refl c))
  rw [children, hform]
  simp only [Form.children, Form.operands, Form.deferred, List.append_nil, List.mem_append,
    List.mem_flatMap]
  exact .inl ⟨b, hmem, hc⟩

/-- What is reached from a captured expression is reached from where it was captured, except for
the parentheses and the function that were put around it. -/
theorem Reaches.of_captured {b : Binding Expr} (hb : b ∈ e.bindings) (h : b.captured.Reaches a) :
    e.Reaches a ∨ (∃ inner, a = Build.parens inner) ∨
      ∃ params body, a = .ofForm (.function params body) := by
  have hexprs {c : Expr} (hc : c ∈ b.exprs) (hca : c.Reaches a) : e.Reaches a :=
    (reaches_of_mem_exprs hb hc).trans hca
  have hparens {inner : Expr} (h : (Build.parens inner).Reaches a) :
      a = Build.parens inner ∨ inner.Reaches a := by
    rcases reaches_iff.mp h with rfl | ⟨c, hc, hca⟩
    · exact .inl rfl
    · obtain rfl := List.mem_singleton.mp hc
      exact .inr hca
  have hbody : b.body ∈ b.exprs := by simp [Binding.exprs]
  have hstands : b.StandsFor b.captured := Binding.captured_eq_iff.mp rfl
  generalize b.captured = captured at h hstands
  cases hstands with
  | function hparams =>
    rcases hparens h with rfl | h
    · exact .inr (.inl ⟨_, rfl⟩)
    · rcases reaches_iff.mp h with rfl | ⟨c, hc, hca⟩
      · exact .inr (.inr ⟨_, _, rfl⟩)
      · refine .inl (hexprs ?_ hca)
        simpa [children, ofForm, Form.children, Form.operands, Form.deferred, Binding.exprs,
          hparams, Parameters.fallbacks?] using hc
  | importCode =>
    rcases hparens h with rfl | h
    · exact .inr (.inl ⟨_, rfl⟩)
    · exact .inl (hexprs hbody h)
  | plain => exact .inl (hexprs hbody h)

/-- The names that a definition mentions are mentioned where it was captured. -/
theorem Mentions.of_definition? {y : String} (h : e.definition? x = some body)
    (hmentions : body.Mentions y) : e.Mentions y := by
  obtain ⟨b, hb, -, rfl⟩ := exists_of_definition? h
  obtain ⟨v, hv, hform⟩ := hmentions
  rcases Reaches.of_captured hb hv with hv | ⟨_, rfl⟩ | ⟨_, _, rfl⟩
  · exact ⟨v, hv, hform⟩
  · cases hform
  · cases hform

/-! ## One level of expansion -/

section Steps

variable {captured : List (String × Expr)} {limit limit' room room' : Nat}

/-- An expression is replaced if and only if it is a variable that is captured. -/
theorem replacement?_eq_some_iff :
    e.replacement? captured = some body ↔
      ∃ x, e.form = .var x ∧ captured.reverse.lookup x = some body := by
  unfold replacement?
  split
  next x hform => simp [hform]
  next hform =>
    constructor
    · nofun
    · rintro ⟨x, hx, -⟩
      exact absurd hx (hform x)

/-- What a level of expansion does when it succeeds: it goes to the replacement, or it goes to all
children. -/
theorem expandWithin_eq_ok (h : e.expandWithin captured limit (room + 1) = .ok e') :
    (∃ body, e.replacement? captured = some body ∧
        body.expandWithin captured limit room = .ok e') ∨
      e.replacement? captured = none ∧
        ∃ new, List.Forall₂ (fun c c' => c.expandWithin captured limit room = .ok c')
          e.children new ∧ e' = e.withChildren new := by
  rw [expandWithin] at h
  split at h
  next body hbody => exact .inl ⟨body, hbody, h⟩
  next hnone =>
    obtain ⟨new, hnew, h⟩ := Outcome.bind_eq_ok h
    exact .inr ⟨hnone, new, Outcome.mapM_eq_ok hnew, (Except.ok.inj h).symm⟩

/-- An expression that is replaced is expanded to what its replacement is expanded to. -/
theorem expandWithin_of_some (h : e.replacement? captured = some body) :
    e.expandWithin captured limit (room + 1) = body.expandWithin captured limit room := by
  rw [expandWithin, h]

/-- An expression that is not replaced is expanded where its children are. -/
theorem expandWithin_of_none {new : List Expr} (h : e.replacement? captured = none)
    (hnew : List.Forall₂ (fun c c' => c.expandWithin captured limit room = .ok c') e.children new) :
    e.expandWithin captured limit (room + 1) = .ok (e.withChildren new) := by
  rw [expandWithin, h]
  simp only [Outcome.mapM_of_forall₂ hnew]
  rfl

/-- More room and another limit do not change what is reached. -/
theorem expandWithin_mono (h : e.expandWithin captured limit room = .ok e') (hroom : room ≤ room') :
    e.expandWithin captured limit' room' = .ok e' := by
  induction room generalizing e e' room' with
  | zero => cases h
  | succ room ih =>
    obtain ⟨more, rfl⟩ : ∃ more, room' = more + 1 := ⟨room' - 1, by omega⟩
    have hmore : room ≤ more := by omega
    obtain ⟨body, hbody, h⟩ | ⟨hnone, new, hnew, rfl⟩ := expandWithin_eq_ok h
    · rw [expandWithin_of_some hbody]
      exact ih h hmore
    · exact expandWithin_of_none hnone (hnew.imp fun c c' hc => ih hc hmore)

/-- Expansion fails only for want of room. -/
theorem eq_depthExceeded_of_expandWithin {err : WalkError}
    (h : e.expandWithin captured limit room = .error err) :
    ∃ location, err = .depthExceeded limit location := by
  induction room generalizing e with
  | zero => exact ⟨e.location, (Except.error.inj h).symm⟩
  | succ room ih =>
    rw [expandWithin] at h
    split at h
    next => exact ih h
    next =>
      cases hchildren : e.children.mapM (expandWithin captured limit room) with
      | ok new =>
        rw [hchildren] at h
        cases h
      | error err' =>
        rw [hchildren] at h
        obtain rfl : err' = err := Except.error.inj h
        obtain ⟨c, -, hc⟩ := Outcome.exists_of_mapM_eq_error hchildren
        exact ih hc

/-- The definition of a name that is mentioned is expanded as well, and with less room. -/
theorem exists_expandWithin_of_mentions (h : e.expandWithin captured limit room = .ok e')
    (hmentions : e.Mentions x) (hbody : captured.reverse.lookup x = some body) :
    ∃ less < room, ∃ body', body.expandWithin captured limit less = .ok body' := by
  induction room generalizing e e' with
  | zero => cases h
  | succ room ih =>
    obtain ⟨v, hv, hform⟩ := hmentions
    obtain ⟨replacement, hsome, h⟩ | ⟨hnone, new, hnew, rfl⟩ := expandWithin_eq_ok h
    · obtain ⟨y, hy, hlookup⟩ := replacement?_eq_some_iff.mp hsome
      -- A variable has no children, so it mentions only itself.
      have hve : v = e := by
        rcases reaches_iff.mp hv with rfl | ⟨c, hc, -⟩
        · rfl
        · rw [children, hy] at hc
          cases hc
      obtain rfl : y = x := by simpa [hve, hy] using hform
      obtain rfl : replacement = body := by simpa [hlookup] using hbody
      exact ⟨room, Nat.lt_succ_self room, e', h⟩
    · rcases reaches_iff.mp hv with rfl | ⟨c, hc, hcv⟩
      · have hsome := replacement?_eq_some_iff.mpr ⟨x, hform, hbody⟩
        rw [hnone] at hsome
        cases hsome
      · obtain ⟨c', -, hcc'⟩ := Outcome.exists_of_mem_left hnew c hc
        obtain ⟨less, hless, h⟩ := ih hcc' ⟨v, hcv, hform⟩
        exact ⟨less, by omega, h⟩

/-! ## Levels -/

/-- No level is below the room if that is so for all children. -/
theorem beyond?_succ_eq_none_iff :
    e.beyond? (room + 1) = none ↔ ∀ c ∈ e.children, c.beyond? room = none := by
  simp [beyond?]

/-- What is not below some room is not below more room. -/
theorem beyond?_mono (h : e.beyond? room = none) (hroom : room ≤ room') :
    e.beyond? room' = none := by
  induction room generalizing e room' with
  | zero => cases h
  | succ room ih =>
    obtain ⟨more, rfl⟩ : ∃ more, room' = more + 1 := ⟨room' - 1, by omega⟩
    rw [beyond?_succ_eq_none_iff] at h ⊢
    exact fun c hc => ih (h c hc) (by omega)

/-- An expression that is expanded has no more levels than there is room. -/
theorem beyond?_of_expandWithin (h : e.expandWithin captured limit room = .ok e') :
    e.beyond? room = none := by
  induction room generalizing e e' with
  | zero => cases h
  | succ room ih =>
    rw [beyond?_succ_eq_none_iff]
    intro c hc
    obtain ⟨body, hbody, -⟩ | ⟨-, new, hnew, -⟩ := expandWithin_eq_ok h
    · obtain ⟨x, hform, -⟩ := replacement?_eq_some_iff.mp hbody
      rw [children, hform] at hc
      cases hc
    · obtain ⟨c', -, hexpand⟩ := Outcome.exists_of_mem_left hnew c hc
      exact ih hexpand

/-! ## Expansion as a relation -/

/-- The first expression is expanded to the second one, given enough room. -/
def Expands (captured : List (String × Expr)) (e e' : Expr) : Prop :=
  ∃ limit room, e.expandWithin captured limit room = .ok e'

/-- An expression is expanded to one expression only. -/
theorem Expands.unique {e₁ e₂ : Expr} (h₁ : e.Expands captured e₁) (h₂ : e.Expands captured e₂) :
    e₁ = e₂ := by
  obtain ⟨limit, room₁, h₁⟩ := h₁
  obtain ⟨_, room₂, h₂⟩ := h₂
  have hmax₁ : e.expandWithin captured limit (max room₁ room₂) = .ok e₁ :=
    expandWithin_mono h₁ (Nat.le_max_left room₁ room₂)
  have hmax₂ : e.expandWithin captured limit (max room₁ room₂) = .ok e₂ :=
    expandWithin_mono h₂ (Nat.le_max_right room₁ room₂)
  exact Except.ok.inj (hmax₁.symm.trans hmax₂)

/-- Expressions that expand do so with the same room. -/
theorem exists_room {es : List Expr} (limit : Nat) (h : ∀ e ∈ es, ∃ e', e.Expands captured e') :
    ∃ room new, List.Forall₂ (fun e e' => e.expandWithin captured limit room = .ok e') es new := by
  induction es with
  | nil => exact ⟨0, [], .nil⟩
  | cons e es ih =>
    obtain ⟨⟨e', limit', room₁, he⟩, hes⟩ := List.forall_mem_cons.mp h
    obtain ⟨room₂, new, hnew⟩ := ih hes
    refine ⟨max room₁ room₂, e' :: new, .cons ?_ (hnew.imp fun a a' ha => ?_)⟩
    · exact expandWithin_mono he (Nat.le_max_left room₁ room₂)
    · exact expandWithin_mono ha (Nat.le_max_right room₁ room₂)

/-- An expression expands if and only if the definitions of all names that it mentions do. -/
theorem exists_expands_iff :
    (∃ e', e.Expands captured e') ↔
      ∀ x body, e.Mentions x → captured.reverse.lookup x = some body →
        ∃ body', body.Expands captured body' := by
  constructor
  · rintro ⟨e', limit, room, h⟩ x body hmentions hbody
    obtain ⟨less, -, body', hless⟩ := exists_expandWithin_of_mentions h hmentions hbody
    exact ⟨body', limit, less, hless⟩
  · intro h
    induction e using induct_children with
    | h e ih =>
      cases hreplacement : e.replacement? captured with
      | some body =>
        obtain ⟨x, hform, hlookup⟩ := replacement?_eq_some_iff.mp hreplacement
        obtain ⟨body', limit, room, hbody⟩ := h x body ⟨e, .refl e, hform⟩ hlookup
        exact ⟨body', limit, room + 1, (expandWithin_of_some hreplacement).trans hbody⟩
      | none =>
        have hchildren : ∀ c ∈ e.children, ∃ c', c.Expands captured c' := by
          intro c hc
          refine ih c hc fun x body hmentions => h x body ?_
          obtain ⟨v, hv, hform⟩ := hmentions
          exact ⟨v, .child hc hv, hform⟩
        obtain ⟨room, new, hnew⟩ := exists_room 0 hchildren
        exact ⟨e.withChildren new, 0, room + 1, expandWithin_of_none hreplacement hnew⟩

/-! ## What an expanded expression holds -/

/-- Everything in an expanded expression was copied, up to its children, from the expression or
from what is captured, and was no variable with a replacement. -/
theorem exists_of_reaches_expanded (h : e.expandWithin captured limit room = .ok e')
    (ha : e'.Reaches a) :
    ∃ c, (e.Reaches c ∨ ∃ entry ∈ captured, entry.2.Reaches c) ∧
      c.replacement? captured = none ∧ ∃ new, a = c.withChildren new := by
  induction room generalizing e e' with
  | zero => cases h
  | succ room ih =>
    obtain ⟨body, hbody, h⟩ | ⟨hnone, new, hnew, rfl⟩ := expandWithin_eq_ok h
    · obtain ⟨name, -, hlookup⟩ := replacement?_eq_some_iff.mp hbody
      have hmem : (name, body) ∈ captured := by
        obtain ⟨before, after, hsplit, -⟩ := List.lookup_eq_some_iff.mp hlookup
        rw [← List.mem_reverse, hsplit]
        simp
      obtain ⟨c, hc, hrest⟩ := ih h ha
      refine ⟨c, .inr ?_, hrest⟩
      exact hc.elim (fun hc => ⟨_, hmem, hc⟩) id
    · rcases reaches_iff.mp ha with rfl | ⟨c', hc', ha⟩
      · exact ⟨e, .inl (.refl e), hnone, new, rfl⟩
      · have hchildren : (e.withChildren new).children = new :=
          Form.children_withChildren hnew.length_eq.symm
        rw [hchildren] at hc'
        obtain ⟨old, hold, hexpand⟩ := Outcome.exists_of_mem_right hnew c' hc'
        obtain ⟨c, hc, hrest⟩ := ih hexpand ha
        exact ⟨c, hc.imp_left (.child hold), hrest⟩

/-- Everything in an expanded expression was copied, up to its children, from an expression that
can be reached, or it is one of the parentheses and functions around what was captured. -/
theorem exists_source_of_expanded (h : e.expandWithin e.captured limit room = .ok e')
    (ha : e'.Reaches a) :
    ∃ c new, a = c.withChildren new ∧ c.replacement? e.captured = none ∧
      (e.Reaches c ∨ (∃ inner, c = Build.parens inner) ∨
        ∃ params body, c = .ofForm (.function params body)) := by
  obtain ⟨c, hc, hnone, new, rfl⟩ := exists_of_reaches_expanded h ha
  refine ⟨c, new, rfl, hnone, ?_⟩
  rcases hc with hc | ⟨entry, hentry, hc⟩
  · exact .inl hc
  · rw [captured_eq_map] at hentry
    obtain ⟨b, hb, rfl⟩ := List.mem_map.mp hentry
    exact Reaches.of_captured hb hc

end Steps

end Expr

/-- What expanding a tree does when it succeeds. The check of the depth adds nothing, since an
expression that is expanded is not too deep. -/
theorem Tree.expand_eq_ok_iff {t t' : Tree} {limit : Nat} :
    t.expand limit = .ok t' ↔
      ∃ root, t.root.expandWithin t.root.captured limit (limit + 1) = .ok root ∧
        t' = { t with root } := by
  constructor
  · intro h
    obtain ⟨⟨⟩, -, h⟩ := Outcome.bind_eq_ok h
    obtain ⟨root, hroot, h⟩ := Outcome.bind_eq_ok h
    exact ⟨root, hroot, (Except.ok.inj h).symm⟩
  · rintro ⟨root, hroot, rfl⟩
    simp only [Tree.expand, Expr.checkDepth, Expr.search_eq_beyond?,
      Expr.beyond?_of_expandWithin hroot, hroot]
    rfl

end JsonnetTree
