import Mathlib.Data.List.Forall2

/-!
# Steps that may fail

A result that is reached in several steps, each of which may fail, is reached by every one of
them. These lemmas take such a chain of steps apart.
-/

namespace JsonnetTree.Outcome

variable {ε ε' α β : Type}

/-- What two steps reach, the first one reaches and the second one goes on from there. -/
theorem bind_eq_ok {x : Except ε α} {f : α → Except ε β} {b : β} (h : (x >>= f) = .ok b) :
    ∃ a, x = .ok a ∧ f a = .ok b := by
  cases x with
  | error e => cases h
  | ok a => exact ⟨a, rfl, h⟩

/-- What is reached after a change is reached before it. -/
theorem map_eq_ok {x : Except ε α} {f : α → β} {b : β} (h : f <$> x = .ok b) :
    ∃ a, x = .ok a ∧ f a = b := by
  cases x with
  | error e => cases h
  | ok a => exact ⟨a, rfl, Except.ok.inj h⟩

/-- A change of the error does not change what is reached. -/
theorem mapError_eq_ok {x : Except ε α} {f : ε → ε'} {a : α} (h : x.mapError f = .ok a) :
    x = .ok a := by
  cases x with
  | error e => cases h
  | ok b => exact congrArg Except.ok (Except.ok.inj h)

/-- What is reached item by item is reached for every item. -/
theorem mapM_eq_ok {f : α → Except ε β} {as : List α} {bs : List β} (h : as.mapM f = .ok bs) :
    List.Forall₂ (fun a b => f a = .ok b) as bs := by
  induction as generalizing bs with
  | nil =>
    obtain rfl : [] = bs := Except.ok.inj h
    exact .nil
  | cons a as ih =>
    rw [List.mapM_cons] at h
    obtain ⟨b, hb, h⟩ := bind_eq_ok h
    obtain ⟨cs, hcs, h⟩ := bind_eq_ok h
    obtain rfl : b :: cs = bs := Except.ok.inj h
    exact .cons hb (ih hcs)

/-- What is reached for every item is reached item by item. -/
theorem mapM_of_forall₂ {f : α → Except ε β} {as : List α} {bs : List β}
    (h : List.Forall₂ (fun a b => f a = .ok b) as bs) : as.mapM f = .ok bs := by
  induction h with
  | nil => rfl
  | cons hab _ ih =>
    rw [List.mapM_cons, hab, ih]
    rfl

/-- What fails item by item fails at some item. -/
theorem exists_of_mapM_eq_error {f : α → Except ε β} {as : List α} {e : ε}
    (h : as.mapM f = .error e) : ∃ a ∈ as, f a = .error e := by
  induction as with
  | nil => cases h
  | cons a as ih =>
    rw [List.mapM_cons] at h
    cases ha : f a with
    | error e' =>
      rw [ha] at h
      obtain rfl : e' = e := Except.error.inj h
      exact ⟨a, List.mem_cons_self, ha⟩
    | ok b =>
      rw [ha] at h
      cases has : as.mapM f with
      | error e' =>
        rw [has] at h
        obtain rfl : e' = e := Except.error.inj h
        obtain ⟨c, hc, hfail⟩ := ih has
        exact ⟨c, List.mem_cons_of_mem a hc, hfail⟩
      | ok bs =>
        rw [has] at h
        cases h

/-- What stands in the second of two lists that belong together has a partner in the first. -/
theorem exists_of_mem_right {R : α → β → Prop} {as : List α} {bs : List β}
    (h : List.Forall₂ R as bs) : ∀ b ∈ bs, ∃ a ∈ as, R a b := by
  induction h with
  | nil => nofun
  | @cons a b as bs hab _ ih =>
    intro c hc
    rcases List.mem_cons.mp hc with rfl | hc
    · exact ⟨a, by simp, hab⟩
    · obtain ⟨d, hd, hdc⟩ := ih c hc
      exact ⟨d, by simp [hd], hdc⟩

/-- What stands in the first of two lists that belong together has a partner in the second. -/
theorem exists_of_mem_left {R : α → β → Prop} {as : List α} {bs : List β}
    (h : List.Forall₂ R as bs) : ∀ a ∈ as, ∃ b ∈ bs, R a b :=
  exists_of_mem_right h.flip

/-- Where every partner is given by a function, the second list is made by the function. -/
theorem eq_map_of_forall₂ {f : α → β} {as : List α} {bs : List β}
    (h : List.Forall₂ (fun a b => b = f a) as bs) : bs = as.map f := by
  induction h with
  | nil => rfl
  | cons hab _ ih => rw [hab, ih, List.map_cons]

/-- What is reached for some item of a list is reached from some item of the list. -/
theorem exists_of_mem_mapM {f : α → Except ε β} {as : List α} {bs : List β}
    (h : as.mapM f = .ok bs) : ∀ b ∈ bs, ∃ a ∈ as, f a = .ok b :=
  exists_of_mem_right (mapM_eq_ok h)

/-- Where every result of the steps is made from something, the list of results is. -/
theorem exists_map_of_mapM {γ : Type} {f : α → Except ε γ} {make : β → γ}
    {R : α → β → Prop} {as : List α} {cs : List γ}
    (hitem : ∀ a ∈ as, ∀ c, f a = .ok c → ∃ b, c = make b ∧ R a b) (h : as.mapM f = .ok cs) :
    ∃ bs : List β, cs = bs.map make ∧ List.Forall₂ R as bs := by
  have hall := mapM_eq_ok h
  clear h
  induction hall with
  | nil => exact ⟨[], rfl, .nil⟩
  | @cons a c as cs hac _ ih =>
    obtain ⟨b, rfl, hab⟩ := hitem a (by simp) c hac
    obtain ⟨bs, rfl, hbs⟩ := ih fun a ha => hitem a (by simp [ha])
    exact ⟨b :: bs, rfl, .cons hab hbs⟩

/-! ## What steps fail with -/

/-- The steps have a result, or their error has the property. -/
def FailsOnly (p : ε → Prop) (x : Except ε α) : Prop :=
  ∀ e, x = .error e → p e

variable {p : ε → Prop}

/-- A result is no error. -/
theorem failsOnly_ok (a : α) : FailsOnly p (.ok a : Except ε α) := by
  intro e he
  cases he

/-- Two steps fail as the first one does, or as the second one does where the first one leads. -/
theorem FailsOnly.bind {x : Except ε α} {f : α → Except ε β} (hx : FailsOnly p x)
    (hf : ∀ a, x = .ok a → FailsOnly p (f a)) : FailsOnly p (x >>= f) := by
  cases x with
  | error e =>
    intro e' he'
    obtain rfl : e = e' := Except.error.inj he'
    exact hx e rfl
  | ok a => exact hf a rfl

/-! ## Which of several faults steps fail with -/

/-- The steps fail with the first of the faults, and succeed if there are none. -/
def FailsFirst (faults : List ε) (x : Except ε α) : Prop :=
  ∀ e, x = .error e ↔ faults.head? = some e

variable {faults rest : List ε}

/-- A result has no faults. -/
theorem failsFirst_ok (a : α) : FailsFirst [] (.ok a : Except ε α) := by
  intro e
  simp

/-- An error is the first fault. -/
theorem failsFirst_error (e : ε) : FailsFirst (e :: faults) (.error e : Except ε α) := by
  intro e'
  simp

/-- Steps without faults have a result. -/
theorem FailsFirst.exists_ok {x : Except ε α} (h : FailsFirst [] x) : ∃ a, x = .ok a := by
  cases x with
  | ok a => exact ⟨a, rfl⟩
  | error e => cases (h e).mp rfl

/-- The faults of the first one of two steps come before those of the second one. -/
theorem FailsFirst.bind {x : Except ε α} {f : α → Except ε β} (hx : FailsFirst faults x)
    (hf : ∀ a, x = .ok a → FailsFirst rest (f a)) : FailsFirst (faults ++ rest) (x >>= f) := by
  intro e
  cases faults with
  | nil =>
    obtain ⟨a, rfl⟩ := hx.exists_ok
    exact hf a rfl e
  | cons fault faults =>
    rw [(hx fault).mpr rfl]
    exact failsFirst_error fault e

/-- A change of the result brings no faults. -/
theorem FailsFirst.map {x : Except ε α} (f : α → β) (hx : FailsFirst faults x) :
    FailsFirst faults (x >>= fun a => .ok (f a)) := by
  have hbind := hx.bind fun a _ => failsFirst_ok (f a)
  rwa [List.append_nil] at hbind

/-- What goes item by item has the faults of all items, in order. -/
theorem FailsFirst.mapM {f : α → Except ε β} {as : List α} {faults : α → List ε}
    (h : ∀ a ∈ as, FailsFirst (faults a) (f a)) : FailsFirst (as.flatMap faults) (as.mapM f) := by
  induction as with
  | nil => exact failsFirst_ok []
  | cons a as ih =>
    obtain ⟨hfirst, hrest⟩ := List.forall_mem_cons.mp h
    rw [List.mapM_cons, List.flatMap_cons]
    exact hfirst.bind fun b _ => (ih hrest).map (b :: ·)

end JsonnetTree.Outcome
