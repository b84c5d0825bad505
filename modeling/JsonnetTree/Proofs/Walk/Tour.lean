import JsonnetTree.Proofs.Expr.Occurrences
import JsonnetTree.Walk
import Mathlib.Data.List.Infix
import Mathlib.Data.List.Perm.Basic

/-!
# The order of a walk

A full walk calls a hook three times at every place of an expression. `Expr.visits` lists these
calls in order, each with its place, and `Expr.IsTour` says which order this is: places are
entered parents first and left children first, and a call in the middle of an expression separates
its last child from those before it. That a walk makes these calls is proved elsewhere; here is
only what they are.
-/

namespace JsonnetTree

/-- A call of a hook on a walk: the place where it is made, and when. -/
structure Visit extends Occurrence where
  phase : Phase

namespace Visit

/-- The visit as it is seen from further up, from where a path leads to the expression above it. -/
def under (path : List Nat) (v : Visit) : Visit :=
  ⟨v.toOccurrence.under path, v.phase⟩

/-- What the hook is called with. -/
def call (v : Visit) : Phase × Expr :=
  (v.phase, v.expr)

/-- When and where a call is made. -/
def key (v : Visit) : Phase × List Nat :=
  (v.phase, v.path)

end Visit

/-- The three visits at a place. -/
def Occurrence.visits (o : Occurrence) : List Visit :=
  [⟨o, .pre⟩, ⟨o, .mid⟩, ⟨o, .post⟩]

/-- The visits at a place are those that are made there. -/
@[simp] theorem Occurrence.mem_visits {o : Occurrence} {v : Visit} :
    v ∈ o.visits ↔ v.toOccurrence = o := by
  obtain ⟨place, phase⟩ := v
  cases phase <;> simp [visits]

namespace Expr

/-- The visits of a full walk, in order. -/
def visits : Expr → List Visit :=
  fold fun e below =>
    let branches := below.zipIdx.map fun b => b.1.map (·.under [b.2])
    ⟨⟨[], e⟩, .pre⟩ :: (branches.dropLast.flatten ++
      ⟨⟨[], e⟩, .mid⟩ :: (branches.getLast?.toList.flatten ++ [⟨⟨[], e⟩, .post⟩]))

/-- The visits below each child. -/
def branches (e : Expr) : List (List Visit) :=
  e.children.zipIdx.map fun c => c.1.visits.map (·.under [c.2])

/-- The visits of an expression itself stand around those of its children and before the last. -/
theorem visits_eq (e : Expr) :
    e.visits = ⟨⟨[], e⟩, .pre⟩ :: (e.branches.dropLast.flatten ++
      ⟨⟨[], e⟩, .mid⟩ :: (e.branches.getLast?.toList.flatten ++ [⟨⟨[], e⟩, .post⟩])) := by
  have hbranches : ((e.children.map visits).zipIdx.map fun b => b.1.map (·.under [b.2])) =
      e.branches := by
    rw [List.zipIdx_map, List.map_map]
    rfl
  rw [visits, fold_eq, ← hbranches]
  rfl

/-- Nothing is lost between the last branch and those before it. -/
theorem flatten_branches (e : Expr) :
    e.branches.dropLast.flatten ++ e.branches.getLast?.toList.flatten = e.branches.flatten := by
  rw [← List.flatten_append]
  cases hlast : e.branches.getLast? with
  | none => rw [List.getLast?_eq_none_iff.mp hlast]; rfl
  | some last => rw [Option.toList_some, List.dropLast_append_getLast? last hlast]

/-! ## Every place is visited three times -/

/-- The visits of an expression itself, and those of its children, in another order. -/
theorem visits_perm_branches (e : Expr) :
    e.visits.Perm (Occurrence.visits ⟨[], e⟩ ++ e.branches.flatten) := by
  rw [visits_eq, ← e.flatten_branches]
  refine (List.perm_middle.trans (.cons _ ?_)).cons _
  rw [← List.append_assoc]
  exact List.perm_append_singleton _ _

/-- The visits are the three visits at every place, in another order. -/
theorem visits_perm (e : Expr) : e.visits.Perm (e.occurrences.flatMap (·.visits)) := by
  induction e using induct_children with
  | h e ih =>
    have hchild : ∀ c ∈ e.children.zipIdx, (c.1.visits.map (·.under [c.2])).Perm
        ((c.1.occurrences.map (·.under [c.2])).flatMap (·.visits)) := by
      intro c hc
      have hunder (o : Occurrence) : (o.under [c.2]).visits = o.visits.map (·.under [c.2]) := rfl
      rw [List.flatMap_map]
      simp only [hunder, ← List.map_flatMap]
      exact (ih c.1 (mem_children_of_mem_zipIdx hc)).map _
    refine e.visits_perm_branches.trans ?_
    rw [occurrences_eq, List.flatMap_cons, branches, ← List.flatMap_def, List.flatMap_assoc]
    exact (List.Perm.flatMap_left _ hchild).append_left _

variable {e a : Expr} {path : List Nat} {v : Visit}

/-- The places that are visited are those of the expression. -/
theorem mem_visits_iff : v ∈ e.visits ↔ e.at? v.path = some v.expr := by
  rw [e.visits_perm.mem_iff, List.mem_flatMap, ← mem_occurrences_iff]
  simp

/-- No place is visited twice in the same phase. -/
theorem nodup_keys (e : Expr) : (e.visits.map Visit.key).Nodup := by
  rw [(e.visits_perm.map _).nodup_iff, List.map_flatMap, List.nodup_flatMap]
  refine ⟨fun o _ => by simp [Occurrence.visits, Visit.key], ?_⟩
  have hpaths : e.occurrences.Pairwise fun o o' => o.path ≠ o'.path :=
    List.pairwise_map.mp e.nodup_paths
  have hpath {o : Occurrence} {key} (hkey : key ∈ o.visits.map Visit.key) : key.2 = o.path := by
    obtain ⟨v, hv, rfl⟩ := List.mem_map.mp hkey
    rw [← Occurrence.mem_visits.mp hv]
    rfl
  exact hpaths.imp fun hne key hkey hkey' => hne ((hpath hkey).symm.trans (hpath hkey'))

/-! ## Pre-order and post-order -/

/-- The visits below the children in one phase. -/
theorem filter_phase_branches (e : Expr) (phase : Phase) :
    (e.branches.flatten.filter (·.phase = phase)).map (·.toOccurrence) =
      e.children.zipIdx.flatMap fun c =>
        ((c.1.visits.filter (·.phase = phase)).map (·.toOccurrence)).map (·.under [c.2]) := by
  rw [List.filter_flatten, List.map_flatten, branches, List.map_map, List.map_map,
    List.flatMap_def]
  congr 1
  refine List.map_congr_left fun c _ => ?_
  simp only [Function.comp_apply, List.filter_map, List.map_map]
  rfl

/-- Places are entered parents first. -/
theorem pre_visits (e : Expr) :
    (e.visits.filter (·.phase = .pre)).map (·.toOccurrence) = e.occurrences := by
  induction e using induct_children with
  | h e ih =>
    have hsplit : e.visits.filter (·.phase = .pre) =
        ⟨⟨[], e⟩, .pre⟩ :: e.branches.flatten.filter (·.phase = .pre) := by
      rw [visits_eq, ← e.flatten_branches]
      simp
    rw [hsplit, List.map_cons, filter_phase_branches, occurrences_eq]
    congr 1
    exact List.flatMap_congr fun c hc => by rw [ih c.1 (mem_children_of_mem_zipIdx hc)]

/-- Places are left children first. -/
theorem post_visits (e : Expr) :
    (e.visits.filter (·.phase = .post)).map (·.toOccurrence) = e.postOccurrences := by
  induction e using induct_children with
  | h e ih =>
    have hsplit : e.visits.filter (·.phase = .post) =
        e.branches.flatten.filter (·.phase = .post) ++ [⟨⟨[], e⟩, .post⟩] := by
      rw [visits_eq, ← e.flatten_branches]
      simp
    rw [hsplit, List.map_append, filter_phase_branches, postOccurrences_eq]
    congr 1
    exact List.flatMap_congr fun c hc => by rw [ih c.1 (mem_children_of_mem_zipIdx hc)]

/-! ## What lies between -/

section Branches

variable {i : Nat} {c : Expr} (hc : e.children[i]? = some c)

include hc

/-- The visits below a child are found under its number. -/
theorem getElem?_branches : e.branches[i]? = some (c.visits.map (·.under [i])) := by
  simp [branches, hc]

/-- The visits below a child that has a next one come before the last. -/
theorem mem_dropLast_branches (hi : i + 1 < e.children.length) :
    c.visits.map (·.under [i]) ∈ e.branches.dropLast := by
  refine List.mem_of_getElem? (i := i) ?_
  have hlength : e.branches.length = e.children.length := by simp [branches]
  rw [List.getElem?_dropLast, if_pos (by omega), getElem?_branches hc]

/-- The visits below the last child are the last. -/
theorem mem_getLast?_branches (hi : i + 1 = e.children.length) :
    c.visits.map (·.under [i]) ∈ e.branches.getLast?.toList := by
  have hlength : e.branches.length = e.children.length := by simp [branches]
  rw [Option.mem_toList, List.getLast?_eq_getElem?, hlength, ← hi, Nat.add_sub_cancel,
    getElem?_branches hc]

/-- The visits below a child stand together in the walk. -/
theorem branch_together : c.visits.map (·.under [i]) <:+: e.visits := by
  have hi : i < e.children.length := (List.getElem?_eq_some_iff.mp hc).1
  rw [e.visits_eq]
  rcases Nat.lt_or_eq_of_le (Nat.succ_le_of_lt hi) with hi | hi
  · exact (List.infix_of_mem_flatten (mem_dropLast_branches hc hi)).trans ⟨[_], _, rfl⟩
  · refine (List.infix_of_mem_flatten (mem_getLast?_branches hc hi)).trans ?_
    exact List.infix_cons ((List.infix_cons (List.infix_append [] _ _)).trans
      (List.suffix_append _ _).isInfix)

end Branches

/-- The visits at and below a place stand together in the walk. -/
theorem visits_together (ha : e.at? path = some a) : a.visits.map (·.under path) <:+: e.visits := by
  induction path generalizing e with
  | nil =>
    obtain rfl : e = a := by simpa using ha
    have hself : e.visits.map (·.under []) = e.visits := List.map_id' _
    rw [hself]
  | cons i path ih =>
    obtain ⟨c, hc, ha⟩ := at?_cons_eq_some_iff.mp ha
    have hbelow : a.visits.map (·.under (i :: path)) =
        (a.visits.map (·.under path)).map (·.under [i]) := by
      rw [List.map_map]
      rfl
    rw [hbelow]
    exact ((ih ha).map _).trans (branch_together hc)

/-- Calls that are made in some order at and below a place are made so in the whole walk. -/
theorem sublist_visits (ha : e.at? path = some a) {below : List Visit}
    (hbelow : below.Sublist a.visits) : (below.map (·.under path)).Sublist e.visits :=
  (hbelow.map _).trans (visits_together ha).sublist

/-- A call below an expression lies between the first and the last call at it. -/
theorem between_of_ne_nil (hv : v ∈ e.visits) (hpath : v.path ≠ []) :
    [⟨⟨[], e⟩, .pre⟩, v, ⟨⟨[], e⟩, .post⟩].Sublist e.visits := by
  have hbranch : v ∈ e.branches.flatten := by
    refine (List.mem_append.mp (e.visits_perm_branches.mem_iff.mp hv)).resolve_left fun hself => ?_
    exact hpath (congrArg Occurrence.path (Occurrence.mem_visits.mp hself))
  rw [← e.flatten_branches, List.mem_append] at hbranch
  rw [visits_eq]
  refine .cons_cons _ ?_
  rcases hbranch with hv | hv
  · exact (List.singleton_sublist.mpr hv).append ((List.sublist_append_right _ _).cons _)
  · exact (((List.singleton_sublist.mpr hv).append (.refl _)).cons _).trans
      (List.sublist_append_right _ _)

/-- The three calls at an expression are made in the order of the phases. -/
theorem phases_sublist (e : Expr) : (Occurrence.visits ⟨[], e⟩).Sublist e.visits := by
  rw [visits_eq]
  refine .cons_cons _ (.trans ?_ (List.sublist_append_right _ _))
  exact (List.sublist_append_right _ _).cons_cons _

section Middle

variable {i : Nat} {c : Expr} (hc : e.children[i]? = some c)

include hc

/-- A child that is not the last one is left before the call in the middle. -/
theorem post_before_mid (hi : i + 1 < e.children.length) :
    [⟨⟨[i], c⟩, .post⟩, ⟨⟨[], e⟩, .mid⟩].Sublist e.visits := by
  have hpost : ⟨⟨[i], c⟩, .post⟩ ∈ e.branches.dropLast.flatten :=
    List.mem_flatten.mpr ⟨_, mem_dropLast_branches hc hi,
      List.mem_map.mpr ⟨⟨⟨[], c⟩, .post⟩, mem_visits_iff.mpr rfl, rfl⟩⟩
  rw [visits_eq]
  exact ((List.singleton_sublist.mpr hpost).append ((List.nil_sublist _).cons_cons _)).cons _

/-- The last child is entered after the call in the middle. -/
theorem mid_before_pre (hi : i + 1 = e.children.length) :
    [⟨⟨[], e⟩, .mid⟩, ⟨⟨[i], c⟩, .pre⟩].Sublist e.visits := by
  have hpre : ⟨⟨[i], c⟩, .pre⟩ ∈ e.branches.getLast?.toList.flatten :=
    List.mem_flatten.mpr ⟨_, mem_getLast?_branches hc hi,
      List.mem_map.mpr ⟨⟨⟨[], c⟩, .pre⟩, mem_visits_iff.mpr rfl, rfl⟩⟩
  have hlast := (List.singleton_sublist.mpr hpre).trans
    (List.sublist_append_left _ [⟨⟨[], e⟩, .post⟩])
  rw [visits_eq]
  exact ((hlast.cons_cons _).trans (List.sublist_append_right _ _)).cons _

end Middle

end Expr

/-! ## The order of the calls -/

/-- A list of calls that visits every place of an expression once in each phase, in the order of a
walk. -/
structure Expr.IsTour (e : Expr) (visits : List Visit) : Prop where
  /-- The places are those of the expression, and all three calls are made at each. -/
  mem_iff (v : Visit) : v ∈ visits ↔ e.at? v.path = some v.expr
  /-- No call is made twice. -/
  nodup : (visits.map Visit.key).Nodup
  /-- The first calls list the places parents first. -/
  pre : (visits.filter (·.phase = .pre)).map (·.toOccurrence) = e.occurrences
  /-- The last calls list the places children first. -/
  post : (visits.filter (·.phase = .post)).map (·.toOccurrence) = e.postOccurrences
  /-- The calls at a place are made in the order of the phases. -/
  phases {o : Occurrence} (ho : e.at? o.path = some o.expr) : o.visits.Sublist visits
  /-- The calls below a place lie between the first and the last call at it. -/
  nested {o : Occurrence} {v : Visit} (ho : e.at? o.path = some o.expr) (hv : v ∈ visits)
    (hbelow : o.path <+: v.path) (hne : v.path ≠ o.path) :
    [⟨o, .pre⟩, v, ⟨o, .post⟩].Sublist visits
  /-- A child that is not the last one is left before the call in the middle. -/
  mid_after {o : Occurrence} {i : Nat} {c : Expr} (ho : e.at? o.path = some o.expr)
    (hc : o.expr.children[i]? = some c) (hi : i + 1 < o.expr.children.length) :
    [⟨⟨o.path ++ [i], c⟩, .post⟩, ⟨o, .mid⟩].Sublist visits
  /-- The last child is entered after the call in the middle. -/
  mid_before {o : Occurrence} {i : Nat} {c : Expr} (ho : e.at? o.path = some o.expr)
    (hc : o.expr.children[i]? = some c) (hi : i + 1 = o.expr.children.length) :
    [⟨o, .mid⟩, ⟨⟨o.path ++ [i], c⟩, .pre⟩].Sublist visits

namespace Expr

/-- The visits of a full walk are a tour. -/
theorem isTour_visits (e : Expr) : e.IsTour e.visits where
  mem_iff _ := mem_visits_iff
  nodup := e.nodup_keys
  pre := e.pre_visits
  post := e.post_visits
  phases {o} ho := by
    simpa [Occurrence.visits, Visit.under, Occurrence.under] using
      sublist_visits ho o.expr.phases_sublist
  nested {o v} ho hv hbelow hne := by
    obtain ⟨rest, hrest⟩ := hbelow
    have hinner : (⟨⟨rest, v.expr⟩, v.phase⟩ : Visit) ∈ o.expr.visits := by
      rw [mem_visits_iff] at hv ⊢
      simpa [← hrest, at?_append, ho] using hv
    have hrest' : rest ≠ [] := by
      rintro rfl
      exact hne (by simpa using hrest.symm)
    simpa [Visit.under, Occurrence.under, hrest] using
      sublist_visits ho (between_of_ne_nil hinner hrest')
  mid_after {o i c} ho hc hi := by
    simpa [Visit.under, Occurrence.under] using sublist_visits ho (post_before_mid hc hi)
  mid_before {o i c} ho hc hi := by
    simpa [Visit.under, Occurrence.under] using sublist_visits ho (mid_before_pre hc hi)

/-! ## The first place that is too deep -/

namespace IsTour

variable {e : Expr} {v : Visit} {limit : Nat} {visits done rest : List Visit}

/-- A call that is made before another one is among those made up to then. -/
theorem mem_of_before (h : e.IsTour visits) (hsplit : visits = done ++ v :: rest) {w : Visit}
    (hbefore : [w, v].Sublist visits) : w ∈ done := by
  have hnodup : (done ++ v :: rest).Nodup := hsplit ▸ h.nodup.of_map
  have hrest : v ∉ rest := (List.nodup_cons.mp (List.nodup_append.mp hnodup).2.1).1
  obtain ⟨l₁, l₂, hl, h₁, h₂⟩ := List.sublist_append_iff.mp (hsplit ▸ hbefore)
  cases l₁ with
  | nil =>
    obtain rfl : [w, v] = l₂ := hl
    -- Then both calls would come from there on, and the second one after the first.
    have hv : [v].Sublist rest := List.Sublist.tail h₂
    exact absurd (hv.subset (List.mem_singleton_self v)) hrest
  | cons x l₁ =>
    obtain ⟨rfl, -⟩ := List.cons.inj hl
    exact h₁.subset (List.mem_cons_self ..)

/-- The first call that is too deep is the first call at its place. -/
theorem phase_of_too_deep (h : e.IsTour visits) (hsplit : visits = done ++ v :: rest)
    (hdone : ∀ w ∈ done, w.path.length ≤ limit) (hv : limit < v.path.length) :
    v.phase = .pre := by
  have hplace : e.at? v.path = some v.expr := (h.mem_iff v).mp (by simp [hsplit])
  have hphases := h.phases hplace
  have hpre (hbefore : [⟨v.toOccurrence, .pre⟩, v].Sublist visits) : v.phase = .pre :=
    absurd (hdone _ (h.mem_of_before hsplit hbefore)) (Nat.not_le.mpr hv)
  obtain ⟨o, phase⟩ := v
  cases phase with
  | pre => rfl
  | mid => exact hpre ((by simp [Occurrence.visits] : List.Sublist _ o.visits).trans hphases)
  | post => exact hpre ((by simp [Occurrence.visits] : List.Sublist _ o.visits).trans hphases)

/-- The first call that is too deep is one level below the limit. -/
theorem length_of_too_deep (h : e.IsTour visits) (hsplit : visits = done ++ v :: rest)
    (hdone : ∀ w ∈ done, w.path.length ≤ limit) (hv : limit < v.path.length) :
    v.path.length = limit + 1 := by
  have hmem : v ∈ visits := by simp [hsplit]
  have hplace : e.at? v.path = some v.expr := (h.mem_iff v).mp hmem
  obtain hnil | ⟨init, i, hpath⟩ := List.eq_nil_or_concat' v.path
  · simp [hnil] at hv
  · rw [hpath, at?_append, Option.bind_eq_some_iff] at hplace
    obtain ⟨a, ha, -⟩ := hplace
    have hnested := h.nested (o := ⟨init, a⟩) ha hmem ⟨[i], hpath.symm⟩ (by simp [hpath])
    have hinit : init.length ≤ limit :=
      hdone _ (h.mem_of_before hsplit ((List.sublist_append_left _ [_]).trans hnested))
    simp only [hpath, List.length_append, List.length_singleton] at hv ⊢
    omega

/-- The first call that is too deep is at the first place, parents first, below the limit. -/
theorem find?_of_too_deep (h : e.IsTour visits) (hsplit : visits = done ++ v :: rest)
    (hdone : ∀ w ∈ done, w.path.length ≤ limit) (hv : limit < v.path.length) :
    e.occurrences.find? (·.path.length = limit + 1) = some v.toOccurrence := by
  have hphase := h.phase_of_too_deep hsplit hdone hv
  have hlength := h.length_of_too_deep hsplit hdone hv
  have hnone : ((done.filter (·.phase = .pre)).map (·.toOccurrence)).find?
      (·.path.length = limit + 1) = none := by
    simp only [List.find?_eq_none, List.mem_map, List.mem_filter]
    rintro _ ⟨w, ⟨hw, -⟩, rfl⟩
    have := hdone w hw
    simp only [decide_eq_true_eq]
    omega
  rw [← h.pre, hsplit, List.filter_append, List.map_append, List.find?_append, hnone,
    List.filter_cons_of_pos (by simpa using hphase), List.map_cons,
    List.find?_cons_of_pos (by simpa using hlength)]
  rfl

end IsTour

end Expr

end JsonnetTree
