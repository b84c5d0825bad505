import JsonnetTree.Expr.Build
import JsonnetTree.Import
import JsonnetTree.Proofs.Expr.MapChildren
import JsonnetTree.Proofs.Expr.Reach
import JsonnetTree.Proofs.Layout.Notes
import JsonnetTree.Shape
import Mathlib.Algebra.Order.BigOperators.Group.List
import Mathlib.Algebra.Order.Group.Nat

/-!
# Which expressions are printed

The printer goes through the parts of a form on its own account, and not along its children. A part
counts as printed if the text of the form depends on the text of the part, whatever the texts are.
Nearly all that is printed can be reached through children. What cannot is the file operand of an
import, and the default value of a parameter of a local function in a lowered object.
-/

namespace JsonnetTree

variable {α β : Type}

/-! ## Parts that are printed -/

namespace Form

/-- A part is printed if the text of the form changes with that of the part alone. -/
def Prints (options : LayoutOptions) (form : Form Expr) (part : Expr) : Prop :=
  ∃ crowded print print', (∀ a, a ≠ part → print a = print' a) ∧
    form.piecesWith options crowded print ≠ form.piecesWith options crowded print'

/-- The parts beside the children that can be printed: the file operand of an import, and the
default values of the parameters of the local bindings of a lowered object. -/
def aside : Form α → List α
  | .importCode file => [file]
  | .importText file => [file]
  | .loweredObject o => o.locals.flatMap fun b => Parameters.fallbacks? b.params
  | _ => []

/-- The parts that can be printed. -/
def printable (form : Form α) : List α :=
  form.children ++ form.aside

end Form

/-- An expression is printed as part of another one. -/
inductive Expr.Prints (options : LayoutOptions) : Expr → Expr → Prop
  | refl (e : Expr) : Prints options e e
  | part {e part a : Expr} (hpart : e.form.Prints options part) (h : Prints options part a) :
      Prints options e a

/-! ## What the text of a form depends on -/

/-- Only what is done to the default values of a parameter list matters. -/
theorem Parameters.map_congr {f g : α → β} {ps : Parameters α}
    (h : ∀ a ∈ ps.fallbacks, f a = g a) : ps.map f = ps.map g := by
  have hitem : ∀ p ∈ ps.items, p.map f = p.map g := by
    intro p hp
    rw [Parameter.map, Parameter.map, Option.map_congr fun a ha =>
      h a (List.mem_filterMap.mpr ⟨p, hp, ha⟩)]
  rw [Parameters.map, Parameters.map, List.map_congr_left hitem]

/-- The text of a member does not depend on a name that takes no part in its meaning. -/
theorem Member.pieces_mapChildren (child other other' : α → Operand) (m : Member α)
    (pad first : Bool) :
    (m.mapChildren child other).pieces pad first =
      (m.mapChildren child other').pieces pad first := by
  cases hkind : m.kind <;>
    simp [Member.mapChildren, Member.pieces, Member.valuePieces, Member.idPieces,
      Member.hasNameExpr, hkind]

/-- A list is printed the same if each item is. -/
theorem printList_map_congr {print : Bool → β → List Piece} {f g : α → β}
    (h : ∀ a first, print first (f a) = print first (g a)) (first : Bool) (as : List α) :
    printList print first (as.map f) = printList print first (as.map g) := by
  induction as generalizing first with
  | nil => rfl
  | cons a rest ih => rw [List.map_cons, List.map_cons, printList, printList, h, ih]

namespace Form

variable {options : LayoutOptions} {crowded : Bool} {form : Form Expr}
  {print print' : Expr → Bool → List Piece}

/-- Texts that agree on the children can be exchanged there. -/
theorem mapChildren_of_agree (h : ∀ a ∈ form.children, print a = print' a) :
    (form.mapChildren (fun a => (a, print a)) fun a => (a, print' a)) =
      form.map fun a => (a, print' a) := by
  rw [map_eq_mapChildren]
  exact mapChildren_congr fun a ha => by rw [h a ha]

/-- Texts that agree beside the children can be exchanged there. -/
theorem pieces_mapChildren_of_agree (child : Expr → Operand)
    (h : ∀ a ∈ form.aside, print a = print' a) :
    (form.mapChildren child fun a => (a, print a)).pieces options crowded =
      (form.mapChildren child fun a => (a, print' a)).pieces options crowded := by
  cases form with
  | importCode file | importText file => rw [mapChildren, mapChildren, h file (by simp [aside])]
  | object o | objectComp o =>
    simp only [mapChildren, pieces, List.isEmpty_map]
    rw [printList_map_congr fun m first => m.pieces_mapChildren _ _ _ _ first]
  | loweredObject o =>
    have hlocal : ∀ b ∈ o.locals, b.mapBody child (fun a => (a, print a)) =
        b.mapBody child fun a => (a, print' a) := by
      intro b hb
      have hparams : b.params.map (·.map fun a => (a, print a)) =
          b.params.map (·.map fun a => (a, print' a)) :=
        Option.map_congr fun ps hps => Parameters.map_congr fun a ha => by
          rw [h a (List.mem_flatMap.mpr ⟨b, hb, List.mem_flatMap.mpr ⟨ps, by simpa using hps, ha⟩⟩)]
      rw [Binding.mapBody, Binding.mapBody, hparams]
    rw [mapChildren, mapChildren, LoweredObject.mapChildren, LoweredObject.mapChildren,
      List.map_congr_left hlocal]
  | _ => rfl

/-- The text of a form depends on nothing but its children and what can be printed beside them. -/
theorem piecesWith_congr (hchildren : ∀ a ∈ form.children, print a = print' a)
    (haside : ∀ a ∈ form.aside, print a = print' a) :
    form.piecesWith options crowded print = form.piecesWith options crowded print' := by
  rw [piecesWith, map_eq_mapChildren, pieces_mapChildren_of_agree _ haside,
    mapChildren_of_agree hchildren, piecesWith]

/-- What is printed is a child or can be printed beside the children. -/
theorem Prints.mem_printable {part : Expr} (h : form.Prints options part) :
    part ∈ form.printable := by
  obtain ⟨crowded, print, print', hagree, hne⟩ := h
  by_contra hpart
  rw [printable, List.mem_append, not_or] at hpart
  exact hne (piecesWith_congr (fun a ha => hagree a fun heq => hpart.1 (heq ▸ ha))
    fun a ha => hagree a fun heq => hpart.2 (heq ▸ ha))

/-- What is started to print between the tokens of a form is printed. -/
theorem prints_of_mem_items {part : Expr} (hpart : .sub part ∈ form.items) :
    form.Prints options part := by
  classical
  -- The part is marked by a comment, and the notes in the text are counted.
  let marked (a : Expr) : List (Option String) := if a = part then [some ""] else []
  let print (a : Expr) (_ : Bool) : List Piece := if a = part then [.comment ""] else []
  have hmarked (a : Expr) (crowded : Bool) : Piece.notes (print a crowded) = marked a := by
    by_cases h : a = part <;> simp [print, marked, h]
  refine ⟨false, print, fun _ _ => [], fun a ha => by simp [print, ha], fun heq => ?_⟩
  have hnotes : form.items.flatMap (Item.notes marked) =
      form.items.flatMap (Item.notes fun _ => []) := by
    rw [← notes_piecesWith hmarked, heq, notes_piecesWith (g := fun _ => []) fun _ _ => rfl]
  have hmore : (form.items.flatMap (Item.notes fun _ => [])).length <
      (form.items.flatMap (Item.notes marked)).length := by
    rw [List.length_flatMap, List.length_flatMap]
    refine List.sum_lt_sum _ _ (fun item _ => ?_) ⟨_, hpart, by simp [Item.notes, marked]⟩
    cases item <;> simp [Item.notes]
  exact absurd (congrArg List.length hnotes.symm) (Nat.ne_of_lt hmore)

/-- The default values of the parameters of a local binding are printed with a lowered object. -/
theorem prints_fallback {o : LoweredObject Expr} {b : Binding Expr} {value : Expr}
    (hb : b ∈ o.locals) (hvalue : value ∈ Parameters.fallbacks? b.params) :
    (Form.loweredObject o).Prints options value := by
  obtain ⟨ps, hps, p, hp, hfallback⟩ :
      ∃ ps, b.params = some ps ∧ ∃ p ∈ ps.items, p.fallback = some value := by
    simpa [Parameters.fallbacks?, Parameters.fallbacks] using hvalue
  have hitem : .sub value ∈ p.items := by simp [Parameter.items, hfallback]
  have hlocal : .sub value ∈ b.loweredItems := by
    simp only [Binding.loweredItems, Parameters.listItems?, Parameters.listItems, hps]
    simpa using .inl ⟨p, hp, hitem⟩
  refine prints_of_mem_items ?_
  simpa [items, LoweredObject.items] using .inl ⟨b, hb, hlocal⟩

end Form

namespace Expr

variable {options : LayoutOptions} {e a : Expr}

/-- What is printed can be reached or is printed beside the children of what can be reached. -/
theorem Prints.reaches_or (h : e.Prints options a) :
    e.Reaches a ∨ ∃ host part, e.Reaches host ∧ part ∈ host.form.aside ∧ part.Prints options a := by
  induction h with
  | refl e => exact .inl (.refl e)
  | @part e part a hpart h ih =>
    rcases List.mem_append.mp hpart.mem_printable with hchild | haside
    · exact ih.imp (.child hchild) fun ⟨host, other, hhost, hother, h⟩ =>
        ⟨host, other, .child hchild hhost, hother, h⟩
    · exact .inr ⟨e, part, .refl e, haside, h⟩

/-- What is printed is in any list that is closed under the parts that can be printed. -/
theorem Prints.mem_of_closed {es : List Expr} (h : e.Prints options a) (he : e ∈ es)
    (hes : ∀ b ∈ es, b.form.printable ⊆ es) : a ∈ es := by
  induction h with
  | refl => exact he
  | part hpart _ ih => exact ih (hes _ he hpart.mem_printable)

end Expr

/-! ## Whole trees -/

namespace Tree

/-- What is printed of a tree can be reached from the root, or is printed with the file operand of
an import that can be reached, or with the default value of a parameter of a local function in a
lowered object that can be reached. -/
theorem reaches_of_prints {options : LayoutOptions} {t : Tree} {a : Expr}
    (h : t.root.Prints options a) :
    t.root.Reaches a ∨
      (∃ host file, t.root.Reaches host ∧
        (host.form = .importCode file ∨ host.form = .importText file) ∧ file.Prints options a) ∨
      ∃ host o b value, t.root.Reaches host ∧ host.form = .loweredObject o ∧ b ∈ o.locals ∧
        value ∈ Parameters.fallbacks? b.params ∧ value.Prints options a := by
  refine h.reaches_or.imp_right ?_
  rintro ⟨host, part, hhost, hpart, h⟩
  cases hform : host.form with
  | importCode file =>
    obtain rfl : part = file := by simpa [Form.aside, hform] using hpart
    exact .inl ⟨host, part, hhost, .inl hform, h⟩
  | importText file =>
    obtain rfl : part = file := by simpa [Form.aside, hform] using hpart
    exact .inl ⟨host, part, hhost, .inr hform, h⟩
  | loweredObject o =>
    obtain ⟨b, hb, hpart⟩ : ∃ b ∈ o.locals, part ∈ Parameters.fallbacks? b.params := by
      simpa [Form.aside, hform] using hpart
    exact .inr ⟨host, o, b, part, hhost, hform, hb, hpart, h⟩
  | _ => simp [Form.aside, hform] at hpart

/-- A lowered object with a local function whose parameter takes an import as its default value. -/
def importingDefault : Tree where
  shape := .lowered
  root := Build.loweredObject [] [] [{ Build.binding "f" (Build.var "x") with
    params := some
      ⟨[], [⟨[], "x", [], some (Build.importCode "lib.libsonnet"), [], .unset⟩], false, []⟩ }]
  finalFodder := []

/-- The default value of the local function is printed. -/
theorem prints_importingDefault (options : LayoutOptions) :
    importingDefault.root.Prints options (Build.importCode "lib.libsonnet") :=
  .part (Form.prints_fallback (List.Mem.head _) (List.Mem.head _)) (.refl _)

/-- The default value of the local function is printed with it. -/
theorem reaches_of_prints_importingDefault :
    let value := Build.importCode "lib.libsonnet"
    importingDefault.root.Prints {} value ∧
      (importingDefault.root.Reaches value ∨
        (∃ host file, importingDefault.root.Reaches host ∧
          (host.form = .importCode file ∨ host.form = .importText file) ∧ file.Prints {} value) ∨
        ∃ host o b value', importingDefault.root.Reaches host ∧ host.form = .loweredObject o ∧
          b ∈ o.locals ∧ value' ∈ Parameters.fallbacks? b.params ∧ value'.Prints {} value) :=
  ⟨prints_importingDefault {}, reaches_of_prints (prints_importingDefault {})⟩

/-- Not all that is printed can be reached: the default value of the local function cannot, though
it is no file operand and not below one, and so its import is not listed. -/
theorem prints_unreached :
    let value := Build.importCode "lib.libsonnet"
    importingDefault.checkShape = .ok () ∧ importingDefault.root.Prints {} value ∧
      ¬ importingDefault.root.Reaches value ∧
      (∀ host file, importingDefault.root.Prints {} host →
        (host.form = .importCode file ∨ host.form = .importText file) → ¬ file.Prints {} value) ∧
      importingDefault.root.imports defaultDepth = .ok [] := by
  intro value
  let root := importingDefault.root
  let file := Build.string "lib.libsonnet"
  have hroot : value ≠ root := fun h => by cases congrArg Expr.form h
  have hbody : value ≠ Build.var "x" := fun h => by cases congrArg Expr.form h
  have hfile : value ≠ file := fun h => by cases congrArg Expr.form h
  refine ⟨rfl, prints_importingDefault {}, ?_, ?_, rfl⟩
  · have hpreorder : root.preorder = [root, Build.var "x"] := rfl
    rw [← Expr.mem_preorder_iff, hpreorder]
    simp [hroot, hbody]
  · intro host operand hhost himport h
    have hrootParts : root.form.printable = [Build.var "x", value] := rfl
    have hvalueParts : value.form.printable = [file] := rfl
    have hbodyParts : (Build.var "x").form.printable = [] := rfl
    have hfileParts : file.form.printable = [] := rfl
    have hhost : host ∈ [root, Build.var "x", value, file] :=
      hhost.mem_of_closed List.mem_cons_self
        (by simp [hrootParts, hvalueParts, hbodyParts, hfileParts])
    have hoperand : operand = file := by
      simp only [List.mem_cons, List.not_mem_nil, or_false] at hhost
      rcases hhost with rfl | rfl | rfl | rfl <;> rcases himport with himport | himport <;>
        cases himport
      rfl
    have hvalue : value ∈ [file] :=
      h.mem_of_closed (by simp [hoperand]) (by simp [hfileParts])
    exact hfile (List.mem_singleton.mp hvalue)

end Tree

end JsonnetTree
