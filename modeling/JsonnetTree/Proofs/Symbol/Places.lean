import JsonnetTree.Proofs.Symbol.Context

/-!
# Where symbols come from

The symbols of an expression are what is bound at its places (`Expr.bound`), each with the names of
the fields whose bodies the path to the place goes through (`Naming.bodies`). They are listed in the
order of `Expr.occurrences`, so a symbol comes before all that is bound inside a child of the
expression that binds it.
-/

namespace JsonnetTree

namespace Expr

/-- What an expression itself binds: the bindings of a local expression, and of a lowered object its
local bindings and its fields with literal names. What has no location takes that of the
expression. -/
def bound (e : Expr) (context : List String) : List Symbol :=
  let place (own : Location) : Location := if own.isSet then own else e.location
  match e.form with
  | .locals binds _ => binds.map fun b => ⟨b.name, .localBind, context, place b.location⟩
  | .loweredObject o =>
    o.locals.map (fun b => ⟨b.name, .objectLocal, context, place b.location⟩) ++
      o.fields.filterMap fun d =>
        d.name.literal?.map fun name => ⟨name, .field, context, place d.location⟩
  | _ => []

/-- The children of an expression, of which the bodies of fields stand under the names of the fields
if these are literal. -/
def childrenUnderFields (e : Expr) : List (Option String × Expr) :=
  match e.form with
  | .loweredObject o =>
    o.fields.map (fun d => (none, d.name)) ++ o.fields.map (fun d => (d.name.literal?, d.body)) ++
      (o.locals.map (·.body) ++ o.asserts).map (none, ·)
  | _ => e.children.map (none, ·)

end Expr

/-- The bodies of fields of lowered objects stand under the literal names of the fields. -/
def Naming.bodies : Naming where
  children := Expr.childrenUnderFields
  map_snd e := by
    unfold Expr.childrenUnderFields
    split
    next o hform =>
      simp [hform, Expr.children, Form.children, Form.operands, Form.deferred, Function.comp_def]
    next => simp [Function.comp_def]

namespace Expr

/-! ## Symbols place by place -/

/-- The symbols of an expression are what it binds itself, and the symbols of its children, of which
the bodies of fields have the names of the fields in their context. -/
theorem symbolsIn_eq_bound_append (e : Expr) (context : List String) :
    e.symbolsIn context = e.bound context ++
      e.childrenUnderFields.flatMap fun c => c.2.symbolsIn (context ++ c.1.toList) := by
  unfold childrenUnderFields
  split
  next o hform =>
    rw [symbolsIn_of_loweredObject hform, LoweredObject.symbolsIn, bound, hform]
    simp [List.flatMap_map, Binding.symbol, Location.orOwner, Function.comp_def]
  next hother =>
    have hbound : e.bound context = e.bindingsHere.map (·.symbol .localBind e.location context) := by
      unfold bound bindingsHere
      cases hform : e.form with
      | loweredObject o => exact absurd hform (hother o)
      | _ => rfl
    rw [symbolsIn_of_other hother, hbound]
    simp [List.flatMap_map]

/-- The symbols of an expression are what is bound at its places, in their order. -/
theorem symbolsIn_eq_collect (e : Expr) (context : List String) :
    e.symbolsIn context = Naming.bodies.collect bound e context := by
  induction e using induct_children generalizing context with
  | h e ih =>
    rw [symbolsIn_eq_bound_append, Naming.collect_eq]
    congr 1
    refine List.flatMap_congr fun c hc => ih c.2 ?_ _
    rw [← Naming.bodies.map_snd e]
    exact List.mem_map_of_mem hc

/-! ## The order of places -/

/-- Every place is listed before all places in and below its children. -/
theorem pairwise_occurrences (e : Expr) :
    e.occurrences.Pairwise fun o o' => ∀ i, ¬o'.path ++ [i] <+: o.path := by
  induction e using induct_children with
  | h e ih =>
    rw [occurrences_eq, List.pairwise_cons, List.pairwise_flatMap]
    refine ⟨by simp, fun c hc => ?_, ?_⟩
    · rw [List.pairwise_map]
      refine (ih c.1 (mem_children_of_mem_zipIdx hc)).imp fun {o o'} h i hprefix => h i ?_
      simpa [Occurrence.under] using hprefix
    · -- Paths below different children differ in their first number.
      refine e.pairwise_zipIdx_children.imp fun {c d} hne => ?_
      simp only [List.mem_map, Occurrence.under]
      rintro _ ⟨o, -, rfl⟩ _ ⟨o', -, rfl⟩ i hprefix
      exact hne (List.cons_prefix_cons.mp hprefix).1.symm

/-- The symbols of an expression are what is bound at its places, each of which is looked at once:
the context of a symbol holds the literal names of the fields whose bodies the path to its place
goes through. Each symbol comes before all that is bound in and below the children of its place, and
so before all that is bound in its body. -/
theorem symbols_eq_bound (e : Expr) :
    let found := e.occurrences.flatMap fun o =>
      (o.expr.bound (Naming.bodies.context e o.path)).map fun symbol => (o.path, symbol)
    e.symbols = found.map (·.2) ∧
      found.Pairwise (fun earlier later => ∀ i, ¬later.1 ++ [i] <+: earlier.1) ∧
      (∀ o, o ∈ e.occurrences ↔ e.at? o.path = some o.expr) ∧
      (e.occurrences.map (·.path)).Nodup := by
  intro found
  refine ⟨?_, ?_, fun o => mem_occurrences_iff, e.nodup_paths⟩
  · have hsymbols : e.symbols = Naming.bodies.collect bound e [] := e.symbolsIn_eq_collect []
    simpa [found, Naming.collect, List.map_flatMap, Function.comp_def] using hsymbols
  · rw [List.pairwise_flatMap]
    refine ⟨fun o _ => ?_, e.pairwise_occurrences.imp fun {o o'} h => ?_⟩
    · rw [List.pairwise_map]
      refine List.pairwise_of_forall fun _ _ i hprefix => ?_
      have hlength : (o.path ++ [i]).length ≤ o.path.length := hprefix.length_le
      rw [List.length_append, List.length_singleton] at hlength
      omega
    · simp only [List.mem_map]
      rintro _ ⟨symbol, -, rfl⟩ _ ⟨symbol', -, rfl⟩
      exact h

end Expr

end JsonnetTree
