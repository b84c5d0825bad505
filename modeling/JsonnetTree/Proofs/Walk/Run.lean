import JsonnetTree.Expr.Build
import JsonnetTree.Proofs.Walk.Tour

/-!
# What a walk does

A walk makes the calls that `Expr.visits` lists, until a hook fails or the next place is too deep.
The calls of a walk are told by a hook that writes them down. A walk with hooks that never fail,
on a tree that is no deeper than the limit, makes all of them; any other walk makes the first few.
-/

namespace JsonnetTree

variable {σ : Type} {e : Expr} {limit room : Nat}

namespace Hook

variable (hook : Hook σ)

/-- Makes a call at a place, if there is room for so many levels. -/
def visit (limit room : Nat) (v : Visit) : Walk σ Unit :=
  if v.path.length < room then hook.call v.phase v.expr
  else throw (.depthExceeded limit v.expr.location)

/-- The hook that also writes down what it is called with. -/
def logged : Hook (σ × List (Phase × Expr)) :=
  fun phase e state => ((hook phase e state.1).1, (hook phase e state.1).2, state.2 ++ [(phase, e)])

/-- The calls succeed one after another and lead from a state to another one. -/
inductive Accepts : σ → List Visit → σ → Prop
  | nil (s : σ) : Accepts s [] s
  | cons {s s₁ s₂ : σ} {v : Visit} {rest : List Visit} (hv : hook v.phase v.expr s = (.ok (), s₁))
      (hrest : Accepts s₁ rest s₂) : Accepts s (v :: rest) s₂

/-! ## A walk follows the tour -/

/-- Calls below a child take one level. -/
theorem visit_under (i : Nat) (v : Visit) :
    hook.visit limit (room + 1) (v.under [i]) = hook.visit limit room v := by
  simp [visit, Visit.under, Occurrence.under]

end Hook

/-- A walk makes the calls of the tour. -/
theorem Expr.walkWithin_eq_forM (hook : Hook σ) (limit room : Nat) (e : Expr) :
    e.walkWithin hook limit room = e.visits.forM (hook.visit limit room) := by
  induction room generalizing e with
  | zero =>
    rw [visits_eq, walkWithin]
    rfl
  | succ room ih =>
    have hbranches (cs : List (Expr × Nat)) :
        (cs.map fun c => c.1.visits.map (·.under [c.2])).flatten.forM
            (hook.visit limit (room + 1)) =
          (cs.map (·.1)).forM (walkWithin hook limit room) := by
      induction cs with
      | nil => rfl
      | cons c cs ihcs =>
        simp only [List.forM_eq_forM] at ih ihcs ⊢
        simp only [List.map_cons, List.flatten_cons, List.forM_append, ihcs, List.forM_cons, ih,
          List.forM_map, Hook.visit_under]
    have hbefore := hbranches e.children.zipIdx.dropLast
    have hlast := hbranches e.children.zipIdx.getLast?.toList
    rw [List.map_dropLast, List.map_dropLast, List.zipIdx_map_fst] at hbefore
    rw [← Option.toList_map, ← Option.toList_map, ← List.getLast?_map, ← List.getLast?_map,
      List.zipIdx_map_fst] at hlast
    rw [walkWithin, ← hbefore, ← hlast, visits_eq]
    simp [Hook.visit, branches]

namespace Hook

variable {hook : Hook σ} {s s₁ s₂ : σ} {v : Visit} {done rest : List Visit}

/-! ## Calls that succeed, and the first one that does not -/

/-- A call that succeeds is made, if there is room for it. -/
theorem visit_ok (hv : hook v.phase v.expr s = (.ok (), s₁)) (hroom : v.path.length < room) :
    hook.visit limit room v s = (.ok (), s₁) := by
  simp [visit, hroom, call, hv]

/-- A call that fails ends the walk with the phase and the location of the call. -/
theorem visit_error {message : String} (hv : hook v.phase v.expr s = (.error message, s₁))
    (hroom : v.path.length < room) :
    hook.visit limit room v s = (.error (.hook v.phase v.expr.location message), s₁) := by
  simp [visit, hroom, call, hv]

/-- The walk goes on after a call that succeeds. -/
theorem forM_cons_of_ok (hv : hook.visit limit room v s = (.ok (), s₁)) :
    (v :: rest).forM (hook.visit limit room) s = rest.forM (hook.visit limit room) s₁ := by
  simp [bind, ExceptT.bind, ExceptT.mk, StateT.bind, ExceptT.bindCont, hv]

/-- The walk ends with a call that fails. -/
theorem forM_cons_of_error {err : WalkError}
    (hv : hook.visit limit room v s = (.error err, s₁)) :
    (v :: rest).forM (hook.visit limit room) s = (.error err, s₁) := by
  simp [bind, ExceptT.bind, ExceptT.mk, StateT.bind, ExceptT.bindCont, hv]
  rfl

/-- After calls that succeed, the walk goes on from the state that they lead to. -/
theorem forM_of_accepts (h : hook.Accepts s done s₁) (hroom : ∀ v ∈ done, v.path.length < room) :
    (done ++ rest).forM (hook.visit limit room) s = rest.forM (hook.visit limit room) s₁ := by
  induction h with
  | nil s => rfl
  | cons hv _ ih =>
    rw [List.forall_mem_cons] at hroom
    rw [List.cons_append, forM_cons_of_ok (visit_ok hv hroom.1), ih hroom.2]

/-- Calls that succeed also succeed when they are written down. -/
theorem Accepts.logged (h : hook.Accepts s done s₁) (log : List (Phase × Expr)) :
    hook.logged.Accepts (s, log) done (s₁, log ++ done.map Visit.call) := by
  induction h generalizing log with
  | nil s => simpa using Accepts.nil _
  | @cons s s₁ s₂ v rest hv hrest ih =>
    have hlogged : hook.logged v.phase v.expr (s, log) = (.ok (), s₁, log ++ [v.call]) := by
      simp [Hook.logged, hv, Visit.call]
    exact .cons hlogged (by simpa using ih (log ++ [v.call]))

/-- Hooks that never fail accept all calls. -/
theorem exists_accepts (hquiet : ∀ phase a s, (hook phase a s).1 = .ok ()) (visits : List Visit)
    (s : σ) : ∃ s', hook.Accepts s visits s' := by
  induction visits generalizing s with
  | nil => exact ⟨s, .nil s⟩
  | cons v rest ih =>
    obtain ⟨s', hrest⟩ := ih (hook v.phase v.expr s).2
    exact ⟨s', .cons (Prod.ext (hquiet _ _ _) rfl) hrest⟩

/-- Calls are accepted up to one that is too deep or fails. -/
theorem exists_stop (hook : Hook σ) (limit : Nat) (visits : List Visit) (s : σ) :
    ∃ done rest s₁, visits = done ++ rest ∧ hook.Accepts s done s₁ ∧
      (∀ v ∈ done, v.path.length ≤ limit) ∧
      ∀ v ∈ rest.head?, limit < v.path.length ∨
        ∃ message s₂, hook v.phase v.expr s₁ = (.error message, s₂) := by
  induction visits generalizing s with
  | nil => exact ⟨[], [], s, rfl, .nil s, by simp, by simp⟩
  | cons v visits ih =>
    by_cases hv : limit < v.path.length
    · exact ⟨[], v :: visits, s, rfl, .nil s, by simp, by simp [hv]⟩
    · obtain ⟨result, s₁, hcall⟩ : ∃ result s₁, hook v.phase v.expr s = (result, s₁) :=
        ⟨_, _, rfl⟩
      cases result with
      | error message =>
        refine ⟨[], v :: visits, s, rfl, .nil s, by simp, ?_⟩
        rintro w ⟨⟩
        exact .inr ⟨message, s₁, hcall⟩
      | ok =>
        obtain ⟨done, rest, s₂, rfl, hdone, hdepth, hrest⟩ := ih s₁
        have hdepth : ∀ w ∈ v :: done, w.path.length ≤ limit :=
          List.forall_mem_cons.mpr ⟨Nat.not_lt.mp hv, hdepth⟩
        exact ⟨v :: done, rest, s₂, rfl, .cons hcall hdone, hdepth, hrest⟩

/-! ## How a walk ends -/

/-- How a walk from a state ends: the calls that it makes, its result and the state it leaves. -/
inductive Ends (hook : Hook σ) (limit : Nat) (e : Expr) (s : σ) :
    List Visit → Except WalkError Unit → σ → Prop
  /-- All calls are made, and all of them succeed. -/
  | finished {s' : σ} (haccepts : hook.Accepts s e.visits s')
      (hdepth : ∀ w ∈ e.visits, w.path.length ≤ limit) :
      Ends hook limit e s e.visits (.ok ()) s'
  /-- The first call that fails is the last one, and nothing before it was too deep. -/
  | failed {done rest : List Visit} {v : Visit} {message : String} {s₁ s₂ : σ}
      (hsplit : e.visits = done ++ v :: rest) (haccepts : hook.Accepts s done s₁)
      (hdepth : ∀ w ∈ done ++ [v], w.path.length ≤ limit)
      (hfails : hook v.phase v.expr s₁ = (.error message, s₂)) :
      Ends hook limit e s (done ++ [v]) (.error (.hook v.phase v.expr.location message)) s₂
  /-- The walk stops short of the first call at the first place below the limit, and all calls
  before it succeed. -/
  | tooDeep {done rest : List Visit} {v : Visit} {s₁ : σ}
      (hsplit : e.visits = done ++ v :: rest) (haccepts : hook.Accepts s done s₁)
      (hdepth : ∀ w ∈ done, w.path.length ≤ limit) (hphase : v.phase = .pre)
      (hfirst : e.occurrences.find? (·.path.length = limit + 1) = some v.toOccurrence) :
      Ends hook limit e s done (.error (.depthExceeded limit v.expr.location)) s₁

/-- Every walk ends in one of these ways. -/
theorem exists_ends (hook : Hook σ) (limit : Nat) (e : Expr) (s : σ) :
    ∃ calls result s', hook.Ends limit e s calls result s' := by
  obtain ⟨done, rest, s₁, hsplit, haccepts, hdepth, hstop⟩ := hook.exists_stop limit e.visits s
  cases rest with
  | nil =>
    obtain rfl : e.visits = done := by simpa using hsplit
    exact ⟨_, _, _, .finished haccepts hdepth⟩
  | cons v rest =>
    rcases Nat.lt_or_ge limit v.path.length with hv | hv
    · exact ⟨_, _, _, .tooDeep hsplit haccepts hdepth
        (e.isTour_visits.phase_of_too_deep hsplit hdepth hv)
        (e.isTour_visits.find?_of_too_deep hsplit hdepth hv)⟩
    · obtain ⟨message, s₂, hfails⟩ := (hstop v rfl).resolve_left (Nat.not_lt.mpr hv)
      refine ⟨_, _, _, .failed hsplit haccepts (fun w hw => ?_) hfails⟩
      rcases List.mem_append.mp hw with hw | hw
      · exact hdepth w hw
      · rwa [List.mem_singleton.mp hw]

namespace Ends

variable {calls : List Visit} {result : Except WalkError Unit}

/-- A walk leaves the result and the state with which it ends. -/
theorem walk_eq (h : hook.Ends limit e s calls result s₁) : e.walk hook limit s = (result, s₁) := by
  rw [Expr.walk, Expr.walkWithin_eq_forM]
  cases h with
  | finished haccepts hdepth =>
    rw [← List.append_nil e.visits,
      forM_of_accepts haccepts fun w hw => Nat.lt_succ_of_le (hdepth w hw)]
    rfl
  | @failed done rest v message s₁ _ hsplit haccepts hdepth hfails =>
    have hroom (w : Visit) (hw : w ∈ done ++ [v]) : w.path.length < limit + 1 :=
      Nat.lt_succ_of_le (hdepth w hw)
    rw [hsplit, forM_of_accepts haccepts fun w hw => hroom w (List.mem_append_left _ hw),
      forM_cons_of_error (visit_error hfails (hroom v (by simp)))]
  | @tooDeep done rest v _ hsplit haccepts hdepth hphase hfirst =>
    have hv : v.path.length = limit + 1 := by simpa using List.find?_some hfirst
    have hvisit : hook.visit limit (limit + 1) v s₁ =
        (.error (.depthExceeded limit v.expr.location), s₁) := by
      rw [visit, if_neg (by omega)]
      rfl
    rw [hsplit, forM_of_accepts haccepts fun w hw => Nat.lt_succ_of_le (hdepth w hw),
      forM_cons_of_error hvisit]

/-- A walk whose calls are written down ends in the same way. -/
theorem logged (h : hook.Ends limit e s calls result s₁) :
    hook.logged.Ends limit e (s, []) calls result (s₁, calls.map Visit.call) := by
  cases h with
  | finished haccepts hdepth => exact .finished (haccepts.logged []) hdepth
  | @failed done rest v message s₁ _ hsplit haccepts hdepth hfails =>
    refine .failed hsplit (haccepts.logged []) hdepth ?_
    simp [Hook.logged, hfails, Visit.call]
  | tooDeep hsplit haccepts hdepth hphase hfirst =>
    exact .tooDeep hsplit (haccepts.logged []) hdepth hphase hfirst

end Ends

/-- With hooks that never fail and nothing too deep, all calls are made. -/
theorem exists_finished (hquiet : ∀ phase a s, (hook phase a s).1 = .ok ())
    (hlimit : ∀ path a, e.at? path = some a → path.length ≤ limit) (s : σ) :
    ∃ s', hook.Ends limit e s e.visits (.ok ()) s' := by
  obtain ⟨s', haccepts⟩ := exists_accepts hquiet e.visits s
  exact ⟨s', .finished haccepts fun v hv => hlimit v.path v.expr (Expr.mem_visits_iff.mp hv)⟩

end Hook

/-! ## The calls of a walk -/

namespace Expr

/-- With hooks that never fail and a limit that is not exceeded, a walk calls the hooks once in
each phase at every place, in the order of a tour. -/
theorem walk_tour (hook : Hook σ) (hquiet : ∀ phase a s, (hook phase a s).1 = .ok ())
    (hlimit : ∀ path a, e.at? path = some a → path.length ≤ limit) (s : σ) :
    ∃ visits s', e.IsTour visits ∧ e.walk hook limit s = (.ok (), s') ∧
      e.walk hook.logged limit (s, []) = (.ok (), s', visits.map Visit.call) := by
  obtain ⟨s', h⟩ := hook.exists_finished hquiet hlimit s
  exact ⟨e.visits, s', e.isTour_visits, h.walk_eq, h.logged.walk_eq⟩

/-- The calls of a walk over an array in which one variable stands at two places, counted. -/
theorem walk_tour_array :
    let e := Build.array [Build.parens (Build.var "a"), Build.var "a"]
    let count : Hook Nat := fun _ _ => modify (· + 1)
    (∀ path a, e.at? path = some a → path.length ≤ 2) ∧
      ∃ visits s', e.IsTour visits ∧ e.walk count 2 0 = (.ok (), s') ∧
        e.walk count.logged 2 (0, []) = (.ok (), s', visits.map Visit.call) := by
  intro e count
  have hlengths : (e.occurrences.all fun o => o.path.length ≤ 2) = true := rfl
  have hlimit (path : List Nat) (a : Expr) (h : e.at? path = some a) : path.length ≤ 2 := by
    have hmem : ⟨path, a⟩ ∈ e.occurrences := mem_occurrences_iff.mpr h
    simpa using List.all_eq_true.mp hlengths _ hmem
  exact ⟨hlimit, walk_tour count (fun _ _ _ => rfl) hlimit 0⟩

/-- A walk makes the first few of the calls that a walk makes which is not cut short. It ends with
the first call that fails, or before the first call at the first place below the limit, whichever
comes first, and its error tells which. -/
theorem walk_ends (hook : Hook σ) (limit : Nat) (e : Expr) (s : σ) :
    (∀ (τ : Type) (quiet : Hook τ) (deep : Nat) (t : τ),
      (∀ phase a t, (quiet phase a t).1 = .ok ()) →
      (∀ path a, e.at? path = some a → path.length ≤ deep) →
      ∃ t', e.walk quiet.logged deep (t, []) = (.ok (), t', e.visits.map Visit.call)) ∧
    ∃ calls result s', hook.Ends limit e s calls result s' ∧
      e.walk hook limit s = (result, s') ∧
      e.walk hook.logged limit (s, []) = (result, s', calls.map Visit.call) := by
  constructor
  · intro τ quiet deep t hquiet hdeep
    obtain ⟨t', h⟩ := quiet.exists_finished hquiet hdeep t
    exact ⟨t', h.logged.walk_eq⟩
  · obtain ⟨calls, result, s', h⟩ := hook.exists_ends limit e s
    exact ⟨calls, result, s', h, h.walk_eq, h.logged.walk_eq⟩

end Expr

end JsonnetTree
