import JsonnetTree.Proofs.Expansion.Basic
import JsonnetTree.Proofs.Walk.Run

/-!
# The depth of an expression

The depth of an expression is the number of levels below it, going from parents to children. The
check of the depth and every walk measure it: the check fails exactly on an expression that is
deeper than the limit, and a walk over such an expression never comes to its end. They go through
the children in opposite orders, so they may report different places.
-/

namespace JsonnetTree

namespace Expr

/-- How many levels of children there are below an expression. -/
def depth : Expr → Nat :=
  fold fun _ below => (below.map (· + 1)).foldr max 0

variable {e c : Expr} {limit room n : Nat}

/-- The depth of an expression is one more than that of its deepest child. -/
theorem depth_eq (e : Expr) : e.depth = (e.children.map (·.depth + 1)).foldr max 0 := by
  rw [depth, fold_eq, List.map_map]
  rfl

/-- An expression has at most so many levels below it if and only if its children have fewer. -/
theorem depth_le_iff : e.depth ≤ n ↔ ∀ c ∈ e.children, c.depth < n := by
  rw [depth_eq]
  generalize e.children = children
  induction children with
  | nil => simp
  | cons c rest ih =>
    rw [List.map_cons, List.foldr_cons, Nat.max_le, ih, List.forall_mem_cons, Nat.succ_le_iff]

/-- A child has fewer levels below it than its parent. -/
theorem depth_lt_of_mem_children (h : c ∈ e.children) : c.depth < e.depth :=
  depth_le_iff.mp (Nat.le_refl _) c h

/-- The depth is the length of the longest path that leads somewhere. -/
theorem depth_le_iff_at? : e.depth ≤ n ↔ ∀ path a, e.at? path = some a → path.length ≤ n := by
  induction e using induct_children generalizing n with
  | h e ih =>
    rw [depth_le_iff]
    constructor
    · intro h path a ha
      cases path with
      | nil => exact Nat.zero_le n
      | cons i rest =>
        obtain ⟨c, hc, ha⟩ := at?_cons_eq_some_iff.mp ha
        have hmem : c ∈ e.children := List.mem_of_getElem? hc
        have hpos : c.depth < n := h c hmem
        have hrest : rest.length ≤ n - 1 := (ih c hmem).mp (by omega) rest a ha
        rw [List.length_cons]
        omega
    · intro h c hc
      obtain ⟨i, hi⟩ := List.getElem?_of_mem hc
      have hpos : 1 ≤ n := h [i] c (at?_cons_eq_some_iff.mpr ⟨c, hi, rfl⟩)
      have hdepth : c.depth ≤ n - 1 := by
        refine (ih c hc).mpr fun path a ha => ?_
        have hpath := h (i :: path) a (at?_cons_eq_some_iff.mpr ⟨c, hi, ha⟩)
        rw [List.length_cons] at hpath
        omega
      omega

/-! ## The check of the depth -/

/-- Nothing is beyond some room if and only if there are fewer levels. -/
theorem beyond?_eq_none_iff : e.beyond? room = none ↔ e.depth < room := by
  induction room generalizing e with
  | zero => simp [beyond?]
  | succ room ih =>
    rw [beyond?_succ_eq_none_iff, Nat.lt_succ_iff, depth_le_iff]
    exact forall₂_congr fun c _ => ih

/-- The check succeeds on an expression that is no deeper than the limit. -/
theorem checkDepth_of_le (h : e.depth ≤ limit) : e.checkDepth limit = .ok () := by
  rw [checkDepth, search_eq_beyond?, beyond?_eq_none_iff.mpr (Nat.lt_succ_of_le h)]

/-- The check fails on an expression that is deeper than the limit. -/
theorem checkDepth_of_lt (h : limit < e.depth) :
    ∃ location, e.checkDepth limit = .error (.depthExceeded limit location) := by
  cases hbeyond : e.beyond? (limit + 1) with
  | none =>
    have hle := beyond?_eq_none_iff.mp hbeyond
    omega
  | some deep => exact ⟨deep.location, by rw [checkDepth, search_eq_beyond?, hbeyond]⟩

/-- The check succeeds exactly on expressions that are no deeper than the limit. -/
theorem checkDepth_eq_ok_iff : e.checkDepth limit = .ok () ↔ e.depth ≤ limit := by
  refine ⟨fun hcheck => ?_, checkDepth_of_le⟩
  by_contra hdeep
  obtain ⟨location, herror⟩ := checkDepth_of_lt (Nat.lt_of_not_le hdeep)
  rw [hcheck] at herror
  cases herror

/-! ## Walks -/

variable {σ : Type}

/-- No hook brings a walk to the end of an expression that is deeper than the limit. -/
theorem walk_of_lt_depth (hook : Hook σ) (h : limit < e.depth) (s : σ) :
    ∃ err s', e.walk hook limit s = (.error err, s') := by
  obtain ⟨calls, result, s', hends⟩ := hook.exists_ends limit e s
  cases hends with
  | finished haccepts hdepth =>
    have hle : e.depth ≤ limit := depth_le_iff_at?.mpr fun path a ha =>
      hdepth ⟨⟨path, a⟩, .pre⟩ (mem_visits_iff.mpr ha)
    omega
  | failed hsplit haccepts hdepth hfails =>
    exact ⟨_, _, (Hook.Ends.failed hsplit haccepts hdepth hfails).walk_eq⟩
  | tooDeep hsplit haccepts hdepth hphase hfirst =>
    exact ⟨_, _, (Hook.Ends.tooDeep hsplit haccepts hdepth hphase hfirst).walk_eq⟩

/-- A walk over an expression that is no deeper than the limit does not fail for its depth. -/
theorem walk_ne_depthExceeded (hook : Hook σ) (h : e.depth ≤ limit) (s : σ) (n : Nat)
    (location : Location) : (e.walk hook limit s).1 ≠ .error (.depthExceeded n location) := by
  obtain ⟨calls, result, s', hends⟩ := hook.exists_ends limit e s
  rw [hends.walk_eq]
  cases hends with
  | finished haccepts hdepth => simp
  | failed hsplit haccepts hdepth hfails => simp
  | @tooDeep done rest v _ hsplit haccepts hdepth hphase hfirst =>
    have hlength : v.path.length = limit + 1 := by simpa using List.find?_some hfirst
    have hplace := mem_occurrences_iff.mp (List.mem_of_find?_eq_some hfirst)
    have hle := depth_le_iff_at?.mp h _ _ hplace
    omega

/-- A walk over an expression that is no deeper than the limit comes to its end if the hook accepts
all calls. -/
theorem walk_of_accepts {hook : Hook σ} {s s' : σ} (h : e.depth ≤ limit)
    (haccepts : hook.Accepts s e.visits s') : e.walk hook limit s = (.ok (), s') := by
  have hdepth : ∀ v ∈ e.visits, v.path.length ≤ limit := fun v hv =>
    depth_le_iff_at?.mp h v.path v.expr (mem_visits_iff.mp hv)
  exact (Hook.Ends.finished haccepts hdepth).walk_eq

/-! ## The check and the walk -/

/-- A place so many levels down is found, whichever comes first, if and only if there is one. -/
theorem exists_find?_occurrences_iff :
    (∃ o, e.occurrences.find? (·.path.length = n) = some o) ↔
      ∃ path a, e.at? path = some a ∧ path.length = n := by
  rw [← Option.isSome_iff_exists, List.find?_isSome]
  constructor
  · rintro ⟨o, ho, hlength⟩
    exact ⟨o.path, o.expr, mem_occurrences_iff.mp ho, by simpa using hlength⟩
  · rintro ⟨path, a, ha, hlength⟩
    exact ⟨⟨path, a⟩, mem_occurrences_iff.mpr ha, by simpa using hlength⟩

/-- A place so many levels down is found in one order if and only if one is found in the other. -/
theorem exists_find?_backOccurrences_iff :
    (∃ o, e.backOccurrences.find? (·.path.length = n) = some o) ↔
      ∃ o, e.occurrences.find? (·.path.length = n) = some o := by
  simp only [← Option.isSome_iff_exists, List.find?_isSome, e.backOccurrences_perm.mem_iff]

/-- The check reports the first place below the limit, where children are taken from the last to the
first. -/
theorem checkDepth_eq_error_iff {err : WalkError} :
    e.checkDepth limit = .error err ↔
      ∃ o, e.backOccurrences.find? (·.path.length = limit + 1) = some o ∧
        err = .depthExceeded limit o.expr.location := by
  rw [checkDepth, search_eq_beyond?, beyond?_eq_find?]
  cases e.backOccurrences.find? (·.path.length = limit + 1) with
  | none => simp
  | some o => simp [eq_comm]

/-- A walk with hooks that never fail reports the first place below the limit, where children are
taken from the first to the last. -/
theorem walk_eq_error_iff {hook : Hook σ} (hquiet : ∀ phase a s, (hook phase a s).1 = .ok ())
    {s : σ} {err : WalkError} :
    (e.walk hook limit s).1 = .error err ↔
      ∃ o, e.occurrences.find? (·.path.length = limit + 1) = some o ∧
        err = .depthExceeded limit o.expr.location := by
  obtain ⟨calls, result, s', hends⟩ := hook.exists_ends limit e s
  rw [hends.walk_eq]
  cases hends with
  | finished haccepts hdepth =>
    have hnone : e.occurrences.find? (·.path.length = limit + 1) = none := by
      rw [List.find?_eq_none]
      intro o ho
      have hle : o.path.length ≤ limit :=
        hdepth ⟨o, .pre⟩ (mem_visits_iff.mpr (mem_occurrences_iff.mp ho))
      have hne : o.path.length ≠ limit + 1 := by omega
      simpa using hne
    simp [hnone]
  | @failed done rest v message s₁ _ hsplit haccepts hdepth hfails =>
    have hok := hquiet v.phase v.expr s₁
    rw [hfails] at hok
    cases hok
  | tooDeep hsplit haccepts hdepth hphase hfirst => simp [hfirst, eq_comm]

/-- The check fails if and only if a walk with hooks that never fail does, and that is if and only
if some place is one level below the limit. Both report the first such place: the walk takes
children from the first to the last, and the check from the last to the first. -/
theorem checkDepth_walk (hook : Hook σ) (hquiet : ∀ phase a s, (hook phase a s).1 = .ok ())
    (limit : Nat) (e : Expr) (s : σ) :
    ((∃ err, e.checkDepth limit = .error err) ↔ ∃ err, (e.walk hook limit s).1 = .error err) ∧
      ((∃ err, (e.walk hook limit s).1 = .error err) ↔
        ∃ path a, e.at? path = some a ∧ path.length = limit + 1) ∧
      (∀ err, (e.walk hook limit s).1 = .error err ↔
        ∃ o, e.occurrences.find? (·.path.length = limit + 1) = some o ∧
          err = .depthExceeded limit o.expr.location) ∧
      ∀ err, e.checkDepth limit = .error err ↔
        ∃ o, e.backOccurrences.find? (·.path.length = limit + 1) = some o ∧
          err = .depthExceeded limit o.expr.location := by
  have hcheck : (∃ err, e.checkDepth limit = .error err) ↔
      ∃ o, e.backOccurrences.find? (·.path.length = limit + 1) = some o := by
    simp only [checkDepth_eq_error_iff]
    rw [exists_comm]
    simp
  have hwalk : (∃ err, (e.walk hook limit s).1 = .error err) ↔
      ∃ o, e.occurrences.find? (·.path.length = limit + 1) = some o := by
    simp only [walk_eq_error_iff hquiet]
    rw [exists_comm]
    simp
  refine ⟨?_, ?_, fun err => walk_eq_error_iff hquiet, fun err => checkDepth_eq_error_iff⟩
  · rw [hcheck, hwalk, exists_find?_backOccurrences_iff]
  · rw [hwalk, exists_find?_occurrences_iff]

/-- Of two variables below the limit, a walk that counts its calls reports the first one, and the
check the last one. -/
theorem checkDepth_walk_array :
    let first : Location := ⟨"a.jsonnet", ⟨1, 3⟩, ⟨1, 4⟩⟩
    let last : Location := ⟨"a.jsonnet", ⟨1, 9⟩, ⟨1, 10⟩⟩
    let e := Build.array [Build.parens { Build.var "x" with location := first }, Build.null,
      Build.parens { Build.var "y" with location := last }]
    let count : Hook Nat := fun _ _ => modify (· + 1)
    (∀ phase a s, (count phase a s).1 = .ok ()) ∧
      (e.walk count 1 0).1 = .error (.depthExceeded 1 first) ∧
      e.checkDepth 1 = .error (.depthExceeded 1 last) := by
  intro first last e count
  have hquiet (phase : Phase) (a : Expr) (s : Nat) : (count phase a s).1 = .ok () := rfl
  obtain ⟨-, -, hwalk, hcheck⟩ := checkDepth_walk count hquiet 1 e 0
  have hfirst : e.occurrences.find? (·.path.length = 1 + 1) =
      some ⟨[0, 0], { Build.var "x" with location := first }⟩ := by
    unfold e first last
    rfl
  have hlast : e.backOccurrences.find? (·.path.length = 1 + 1) =
      some ⟨[2, 0], { Build.var "y" with location := last }⟩ := by
    unfold e first last
    rfl
  exact ⟨hquiet, (hwalk _).mpr ⟨_, hfirst, rfl⟩, (hcheck _).mpr ⟨_, hlast, rfl⟩⟩

end Expr

end JsonnetTree
