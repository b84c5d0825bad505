import JsonnetTree.Expr.Basic
import JsonnetTree.Expr.FormLaws
import Mathlib.Data.List.Basic

/-!
# Going through children in place

`Form.mapChildrenM` comes across the children of a form one after the other, in the order in which
`Form.children` lists them. So the children that can be replaced are all children
(`Form.exposed_eq_children`), and the children that are read after they were replaced are just the
new ones (`Form.children_withChildren`).
-/

namespace JsonnetTree

variable {α β γ σ : Type}

/-- The action changes the expressions `olds` by `f`, one after the other. Its result holds the
expressions `before`, which were there earlier, and then those that `f` gave. -/
def Visits (f : α → StateM σ α) (exprs : β → List α) (before : List α) (action : StateM σ β)
    (olds : List α) : Prop :=
  ∀ s, ∃ b, action s = (b, (olds.mapM f s).2) ∧ exprs b = before ++ (olds.mapM f s).1

namespace Visits

variable {f : α → StateM σ α} {exprs : β → List α} {exprs' : γ → List α}
  {before olds olds' : List α}

/-- An action that changes nothing. -/
protected theorem pure {b : β} (h : exprs b = before) :
    Visits f exprs before (pure b : StateM σ β) [] :=
  fun _ => ⟨b, rfl, by rw [h]; exact (List.append_nil before).symm⟩

/-- Two actions change what both of them change. The second one may depend on the result of the
first one. -/
theorem bind_of_result {action : StateM σ β} {next : β → StateM σ γ}
    (h : Visits f exprs [] action olds)
    (hnext : ∀ s, Visits f exprs' (before ++ exprs (action s).1) (next (action s).1) olds') :
    Visits f exprs' before (action >>= next) (olds ++ olds') := by
  intro s
  obtain ⟨b, hb, hexprs⟩ := h s
  obtain ⟨c, hc, hexprs'⟩ := hnext s (olds.mapM f s).2
  rw [hb] at hc hexprs'
  have hboth : (olds ++ olds').mapM f s =
      ((olds.mapM f s).1 ++ (olds'.mapM f (olds.mapM f s).2).1,
        (olds'.mapM f (olds.mapM f s).2).2) := by
    rw [List.mapM_append]
    rfl
  refine ⟨c, ?_, ?_⟩
  · rw [hboth, ← hc]
    simp only [bind, StateT.bind, hb]
  · rw [hboth, hexprs', hexprs, List.nil_append, List.append_assoc]

/-- Two actions change what both of them change. -/
protected theorem bind {action : StateM σ β} {next : β → StateM σ γ}
    (h : Visits f exprs [] action olds)
    (hnext : ∀ b, Visits f exprs' (before ++ exprs b) (next b) olds') :
    Visits f exprs' before (action >>= next) (olds ++ olds') :=
  h.bind_of_result fun s => hnext (action s).1

/-- What is made of the result of an action. -/
protected theorem map {action : StateM σ β} {g : β → γ} (h : Visits f exprs [] action olds)
    (hg : ∀ b, exprs' (g b) = before ++ exprs b) : Visits f exprs' before (g <$> action) olds := by
  intro s
  obtain ⟨b, hb, hexprs⟩ := h s
  refine ⟨g b, ?_, by rw [hg, hexprs, List.nil_append]⟩
  simp only [Functor.map, StateT.map, hb]
  rfl

/-- The expressions that are changed may be written in another way. -/
protected theorem congr {action : StateM σ β} (h : Visits f exprs before action olds)
    (holds : olds = olds') : Visits f exprs before action olds' :=
  holds ▸ h

/-- A single expression is changed. -/
theorem one (old : α) : Visits f (fun a => [a]) [] (f old) [old] := by
  intro s
  have hone : [old].mapM f s = ([(f old s).1], (f old s).2) := by
    rw [List.mapM_cons, List.mapM_nil]
    rfl
  exact ⟨(f old s).1, by rw [hone]; rfl, by rw [hone, List.nil_append]⟩

/-- An expression is changed if there is one. -/
theorem option (old : Option α) : Visits f Option.toList [] (old.mapM f) old.toList := by
  cases old with
  | none => exact .pure rfl
  | some old => exact (one old).map fun _ => rfl

/-- Items are changed one after the other. -/
theorem mapM {items : List β} {step : β → StateM σ β}
    (h : ∀ x ∈ items, Visits f exprs [] (step x) (exprs x)) :
    Visits f (fun xs => xs.flatMap exprs) [] (items.mapM step) (items.flatMap exprs) := by
  induction items with
  | nil => exact .pure rfl
  | cons x items ih =>
    have hitems := ih fun y hy => h y (List.mem_cons_of_mem x hy)
    rw [List.mapM_cons, List.flatMap_cons]
    refine (h x (by simp)).bind fun y => ?_
    refine (hitems.bind fun ys => .pure ?_).congr (List.append_nil _)
    simp

/-- Items that hold one expression each are changed one after the other. -/
theorem mapM_one {items : List β} {step : β → StateM σ β} {get : β → α}
    (h : ∀ x ∈ items, Visits f (fun y => [get y]) [] (step x) [get x]) :
    Visits f (List.map get) [] (items.mapM step) (items.map get) := by
  have hexprs : List.map get = fun xs => xs.flatMap fun y => [get y] :=
    funext fun xs => List.map_eq_flatMap
  rw [hexprs]
  exact mapM h

/-! ### Parts of expressions -/

variable (f)

/-- The expression of a list element is changed. -/
theorem element (e : Element α) : Visits f (fun x => [x.expr]) [] (e.mapM f) [e.expr] :=
  .bind (.one e.expr) fun _ => .pure rfl

/-- The value of an argument is changed. -/
theorem namedArgument (a : NamedArgument α) :
    Visits f (fun x => [x.value]) [] (a.mapM f) [a.value] :=
  .bind (.one a.value) fun _ => .pure rfl

/-- The expressions of arguments are changed. -/
theorem arguments (a : Arguments α) : Visits f Arguments.exprs [] (a.mapM f) a.exprs :=
  .congr
    (.bind (.mapM_one fun e _ => element f e) fun _ =>
      .bind (.mapM_one fun n _ => namedArgument f n) fun _ => .pure rfl)
    (by simp [Arguments.exprs])

/-- The default value of a parameter is changed. -/
theorem parameter (p : Parameter α) :
    Visits f (fun x => x.fallback.toList) [] (p.mapM f) p.fallback.toList :=
  .congr (.bind (.option p.fallback) fun _ => .pure rfl) (List.append_nil _)

/-- The default values of a parameter list are changed. -/
theorem parameters (ps : Parameters α) :
    Visits f Parameters.fallbacks [] (ps.mapM f) ps.fallbacks := by
  have hfallbacks (qs : Parameters α) :
      qs.fallbacks = qs.items.flatMap fun p => p.fallback.toList :=
    List.filterMap_eq_flatMap_toList ..
  rw [hfallbacks]
  exact .congr (.bind (.mapM fun p _ => parameter f p) fun _ => .pure (hfallbacks _))
    (List.append_nil _)

/-- The default values of a parameter list that may be missing are changed. -/
theorem parameters? (ps? : Option (Parameters α)) :
    Visits f Parameters.fallbacks? [] (ps?.mapM (·.mapM f)) (Parameters.fallbacks? ps?) := by
  cases ps? with
  | none => exact .pure rfl
  | some ps =>
    refine .congr (.map (parameters f ps) fun qs => ?_) ?_
    · simp [Parameters.fallbacks?]
    · simp [Parameters.fallbacks?]

/-- The expressions of a binding are changed. -/
theorem binding (b : Binding α) : Visits f Binding.exprs [] (b.mapM f) b.exprs :=
  .bind (parameters? f b.params) fun _ => .bind (.one b.body) fun _ => .pure rfl

/-- The body of a binding is changed. -/
theorem bindingBody (b : Binding α) : Visits f (fun x => [x.body]) [] (b.mapBodyM f) [b.body] :=
  .bind (.one b.body) fun _ => .pure rfl

/-- The expression of a condition is changed. -/
theorem condition (c : Condition α) : Visits f (fun x => [x.expr]) [] (c.mapM f) [c.expr] :=
  .bind (.one c.expr) fun _ => .pure rfl

/-- The expressions of a clause are changed. -/
theorem clause (c : Clause α) : Visits f Clause.exprs [] (c.mapM f) c.exprs :=
  .congr
    (.bind (.one c.expr) fun _ =>
      .bind (.mapM_one fun d _ => condition f d) fun _ => .pure rfl)
    (by simp [Clause.exprs])

/-- The expressions of clauses are changed. -/
theorem clauses (cs : Clauses α) : Visits f Clauses.exprs [] (cs.mapM f) cs.exprs := by
  induction cs with
  | outermost c => exact .map (clause f c) fun _ => rfl
  | inside outer c ih =>
    exact .congr (.bind ih fun _ => .bind (clause f c) fun _ => .pure rfl) (by simp [Clauses.exprs])

/-! ### Members of objects -/

/-- The expressions of a member are changed. -/
theorem member (x : Member α) : Visits f Member.exprs [] (x.mapChildrenM f) x.exprs := by
  have hexprs (method : Option (Parameters α)) (expr1 expr2 expr3 : Option α) :
      Member.exprs { x with method, expr1, expr2, expr3 } =
        (if x.hasNameExpr then expr1.toList else []) ++ Parameters.fallbacks? method ++
          expr2.toList ++ expr3.toList := rfl
  unfold Member.mapChildrenM
  by_cases h : x.hasNameExpr
  · rw [if_pos h]
    exact .congr
      (.bind (.option x.expr1) fun _ => .bind (parameters? f x.method) fun _ =>
        .bind (.option x.expr2) fun _ => .bind (.option x.expr3) fun _ =>
          .pure (by rw [hexprs, if_pos h]; rfl))
      (by simp [Member.exprs, h])
  · rw [if_neg h, pure_bind]
    exact .congr
      (.bind (parameters? f x.method) fun _ => .bind (.option x.expr2) fun _ =>
        .bind (.option x.expr3) fun _ => .pure (by rw [hexprs, if_neg h]))
      (by simp [Member.exprs, h])

end Visits

section Members

variable (f : α → StateM σ α)

/-- A member keeps its kind when its expressions are changed. -/
theorem Member.isLocal_mapChildrenM (x : Member α) (s : σ) :
    (x.mapChildrenM f s).1.isLocal = x.isLocal := by
  unfold Member.mapChildrenM
  by_cases h : x.hasNameExpr
  · rw [if_pos h]
    rfl
  · rw [if_neg h]
    rfl

/-- Changes the expressions of the members with a property. -/
def Member.mapWhereM (p : Member α → Bool) (xs : List (Member α)) : StateM σ (List (Member α)) :=
  xs.mapM fun x => if p x then x.mapChildrenM f else pure x

/-- The local bindings are changed in a first pass, and the other members in a second one. -/
theorem Member.mapAllM_eq (xs : List (Member α)) :
    Member.mapAllM f xs =
      Member.mapWhereM f (·.isLocal) xs >>= Member.mapWhereM f (!·.isLocal) := by
  have hstep (x : Member α) : (if x.isLocal then pure x else x.mapChildrenM f) =
      (if !x.isLocal then x.mapChildrenM f else pure x : StateM σ (Member α)) := by
    cases x.isLocal <;> rfl
  simp only [Member.mapAllM, hstep]
  rfl

variable {f} {p : Member α → Bool}

/-- The members without the property stay as they are. -/
theorem Member.filter_mapWhereM (hp : ∀ (x : Member α) s, p (x.mapChildrenM f s).1 = p x)
    (xs : List (Member α)) (s : σ) :
    (Member.mapWhereM f p xs s).1.filter (!p ·) = xs.filter (!p ·) := by
  induction xs generalizing s with
  | nil => rfl
  | cons x xs ih =>
    by_cases hx : p x
    · have hstep : (Member.mapWhereM f p (x :: xs) s).1 =
          (x.mapChildrenM f s).1 :: (Member.mapWhereM f p xs (x.mapChildrenM f s).2).1 := by
        rw [mapWhereM, List.mapM_cons, if_pos hx]
        rfl
      rw [hstep, List.filter_cons_of_neg (by simp [hp, hx]), ih,
        List.filter_cons_of_neg (by simp [hx])]
    · have hstep : (Member.mapWhereM f p (x :: xs) s).1 =
          x :: (Member.mapWhereM f p xs s).1 := by
        rw [mapWhereM, List.mapM_cons, if_neg hx]
        rfl
      rw [hstep, List.filter_cons_of_pos (by simp [hx]), ih,
        List.filter_cons_of_pos (by simp [hx])]

/-- The expressions of the members with the property are changed. -/
theorem Member.visits_mapWhereM (hp : ∀ (x : Member α) s, p (x.mapChildrenM f s).1 = p x)
    (xs : List (Member α)) :
    Visits f (fun ys => (ys.filter p).flatMap (·.exprs)) [] (Member.mapWhereM f p xs)
      ((xs.filter p).flatMap (·.exprs)) := by
  induction xs with
  | nil => exact .pure rfl
  | cons x xs ih =>
    rw [mapWhereM, List.mapM_cons]
    by_cases hx : p x
    · rw [if_pos hx]
      refine .congr ((Visits.member f x).bind_of_result fun s => ih.bind fun ys => .pure ?_) ?_
      · simp [hp, hx]
      · simp [hx]
    · rw [if_neg hx, pure_bind]
      refine .congr (ih.bind fun ys => .pure ?_) ?_
      · simp [hx]
      · simp [hx]

/-- The expressions of all members of an object are changed, those of the local bindings first. -/
theorem Member.visits_mapAllM (f : α → StateM σ α) (xs : List (Member α)) :
    Visits f Member.allExprs [] (Member.mapAllM f xs) (Member.allExprs xs) := by
  let other (x : Member α) : Bool := !x.isLocal
  have hlocal (x : Member α) (s : σ) : (x.mapChildrenM f s).1.isLocal = x.isLocal :=
    x.isLocal_mapChildrenM f s
  have hother (x : Member α) (s : σ) : other (x.mapChildrenM f s).1 = other x :=
    congrArg not (hlocal x s)
  rw [mapAllM_eq, allExprs]
  refine (Member.visits_mapWhereM hlocal xs).bind_of_result fun s => ?_
  -- The second pass finds the other members as they were, and keeps the local bindings.
  have hkept := Member.filter_mapWhereM hlocal xs s
  generalize (Member.mapWhereM f (·.isLocal) xs s).1 = ys at hkept ⊢
  rw [← hkept]
  intro s'
  obtain ⟨zs, hzs, hexprs⟩ := Member.visits_mapWhereM hother ys s'
  refine ⟨zs, hzs, ?_⟩
  have hsame := Member.filter_mapWhereM hother ys s'
  have hnew : (zs.filter (!·.isLocal)).flatMap (·.exprs) =
      (((ys.filter other).flatMap (·.exprs)).mapM f s').1 := hexprs
  simp only [hzs, other, Bool.not_not] at hsame
  rw [allExprs, hsame, hnew, List.nil_append]

end Members

/-! ## Forms -/

/-- What no step changes in its item is the same in all items afterwards. -/
theorem map_mapM_of_kept {step : β → StateM σ β} {g : β → γ}
    (h : ∀ x s, g (step x s).1 = g x) (items : List β) (s : σ) :
    (items.mapM step s).1.map g = items.map g := by
  induction items generalizing s with
  | nil => rfl
  | cons x items ih =>
    have hstep : (List.mapM step (x :: items) s).1 =
        (step x s).1 :: (items.mapM step (step x s).2).1 := by
      rw [List.mapM_cons]
      rfl
    rw [hstep, List.map_cons, h, ih, List.map_cons]

/-- The names, the bodies, the local bindings and the assertions of a lowered object are changed,
in this order. -/
theorem LoweredObject.visits_mapChildrenM (f : α → StateM σ α) (o : LoweredObject α) :
    Visits f Form.children [] (Form.mapChildrenM f (.loweredObject o))
      (Form.children (.loweredObject o)) := by
  have hname (d : LoweredField α) : Visits f (fun x => [x.name]) [] (d.mapNameM f) [d.name] :=
    .bind (.one d.name) fun _ => .pure rfl
  have hbody (d : LoweredField α) : Visits f (fun x => [x.body]) [] (d.mapBodyM f) [d.body] :=
    .bind (.one d.body) fun _ => .pure rfl
  -- The bodies are kept while the names are changed, and the other way round.
  have hbodies (s : σ) :
      (o.fields.mapM (·.mapNameM f) s).1.map (·.body) = o.fields.map (·.body) :=
    map_mapM_of_kept (fun _ _ => rfl) o.fields s
  have hnames (ds : List (LoweredField α)) (s : σ) :
      (ds.mapM (·.mapBodyM f) s).1.map (·.name) = ds.map (·.name) :=
    map_mapM_of_kept (fun _ _ => rfl) ds s
  have hchildren : Form.children (.loweredObject o) =
      o.fields.map (·.name) ++ (o.fields.map (·.body) ++ (o.locals.map (·.body) ++ o.asserts)) := by
    simp [Form.children, Form.operands, Form.deferred]
  have hasserts : Visits f (List.map id) [] (o.asserts.mapM f) (o.asserts.map id) :=
    .mapM_one fun a _ => .one a
  rw [hchildren]
  refine .bind_of_result (.mapM_one fun d _ => hname d) fun s => ?_
  rw [← hbodies s]
  refine .bind_of_result (.mapM_one fun d _ => hbody d) fun s' => ?_
  refine .bind (.mapM_one fun b _ => .bindingBody f b) fun locals => ?_
  refine .congr (.bind hasserts fun asserts => .pure ?_) (by simp)
  simp [Form.children, Form.operands, Form.deferred, hnames]

namespace Form

/-- All children of a form are changed. -/
theorem visits_mapChildrenM (f : α → StateM σ α) (form : Form α) :
    Visits f children [] (form.mapChildrenM f) form.children := by
  cases form with
  | apply a =>
    exact .congr (.bind (.one a.target) fun _ => .bind (.arguments f a.arguments) fun _ =>
      .pure (by simp [children, operands, deferred])) (by simp [children, operands, deferred])
  | applyBrace left right =>
    exact .congr (.bind (.one left) fun _ => .bind (.one right) fun _ => .pure rfl) rfl
  | array a =>
    exact .congr (.bind (.mapM_one fun e _ => .element f e) fun _ =>
      .pure (by simp [children, operands, deferred])) (by simp [children, operands, deferred])
  | arrayComp a =>
    exact .congr (.bind (.one a.body) fun _ => .bind (.clauses f a.clauses) fun _ =>
      .pure (by simp [children, operands, deferred])) (by simp [children, operands, deferred])
  | assert a =>
    exact .congr (.bind (.one a.condition) fun _ => .bind (.option a.message) fun _ =>
      .bind (.one a.rest) fun _ => .pure (by simp [children, operands, deferred]))
      (by simp [children, operands, deferred])
  | binary b =>
    exact .congr (.bind (.one b.left) fun _ => .bind (.one b.right) fun _ => .pure rfl) rfl
  | conditional c =>
    exact .congr (.bind (.one c.condition) fun _ => .bind (.one c.yes) fun _ =>
      .bind (.option c.no) fun _ => .pure (by simp [children, operands, deferred]))
      (by simp [children, operands, deferred])
  | error message => exact .map (.one message) fun _ => rfl
  | function params body =>
    exact .congr (.bind (.parameters f params) fun _ => .bind (.one body) fun _ =>
      .pure (by simp [children, operands, deferred])) (by simp [children, operands, deferred])
  | index i =>
    exact .congr (.bind (.one i.target) fun _ => .bind (.option i.index) fun _ =>
      .pure (by simp [children, operands, deferred])) (by simp [children, operands, deferred])
  | slice s =>
    exact .congr (.bind (.one s.target) fun _ => .bind (.option s.start) fun _ =>
      .bind (.option s.stop) fun _ => .bind (.option s.step) fun _ =>
        .pure (by simp [children, operands, deferred])) (by simp [children, operands, deferred])
  | inSuper i => exact .bind (.one i.index) fun _ => .pure rfl
  | locals binds body =>
    exact .congr (.bind (.mapM fun b _ => .binding f b) fun _ => .bind (.one body) fun _ =>
      .pure (by simp [children, operands, deferred])) (by simp [children, operands, deferred])
  | object o =>
    exact .congr (.bind (Member.visits_mapAllM f o.members) fun _ =>
      .pure (by simp [children, operands, deferred])) (by simp [children, operands, deferred])
  | loweredObject o => exact o.visits_mapChildrenM f
  | objectComp o =>
    exact .congr (.bind (Member.visits_mapAllM f o.members) fun _ =>
      .bind (.clauses f o.clauses) fun _ => .pure (by simp [children, operands, deferred]))
      (by simp [children, operands, deferred])
  | parens inner closeFodder => exact .bind (.one inner) fun _ => .pure rfl
  | superIndex s =>
    exact .congr (.bind (.option s.index) fun _ =>
      .pure (by simp [children, operands, deferred])) (by simp [children, operands, deferred])
  | unary op operand => exact .map (.one operand) fun _ => rfl
  | importCode _ | importText _ => exact .pure rfl
  | dollar | boolean _ | null | number _ | string _ | self | var _ => exact .pure rfl

end Form

/-! ## Reading and replacing children -/

/-- Expressions that are noted are noted in order. -/
theorem mapM_noteChild (olds seen : List α) : olds.mapM noteChild seen = (olds, seen ++ olds) := by
  induction olds generalizing seen with
  | nil => rw [List.append_nil]; rfl
  | cons old olds ih =>
    rw [List.mapM_cons]
    have hrest := ih (seen ++ [old])
    rw [List.append_assoc] at hrest
    simp only [bind, StateT.bind, noteChild, hrest]
    rfl

/-- Expressions are replaced by the given ones, in order. -/
theorem mapM_refill {olds new : List α} (h : new.length = olds.length) :
    olds.mapM refill new = (new, []) := by
  induction olds generalizing new with
  | nil =>
    obtain rfl := List.length_eq_zero_iff.mp h
    rfl
  | cons old olds ih =>
    obtain ⟨a, rest, rfl⟩ := List.exists_of_length_succ new h
    have hrest := ih (Nat.succ.inj h)
    rw [List.mapM_cons]
    simp only [bind, StateT.bind, refill, hrest]
    rfl

namespace Form

/-- The subexpressions that can be replaced are the children, in the same order. -/
theorem exposed_eq_children (form : Form α) : form.exposed = form.children := by
  obtain ⟨form', hnoted, -⟩ := form.visits_mapChildrenM noteChild []
  rw [exposed, hnoted, mapM_noteChild, List.nil_append]

/-- The children of a form are those that it was given. -/
theorem children_withChildren {form : Form α} {new : List α}
    (h : new.length = form.children.length) : (form.withChildren new).children = new := by
  obtain ⟨form', hrefill, hchildren⟩ := form.visits_mapChildrenM refill new
  rw [withChildren, hrefill, hchildren, mapM_refill h, List.nil_append]

end Form

end JsonnetTree
