import JsonnetTree.Proofs.Layout.Template
import JsonnetTree.Proofs.Walk.Run

/-!
# The order of imports

The imports of a tree are listed in the order in which a walk meets them (`Expr.imports_eq_ok`), and
printed in the order in which their texts stand in that of the tree. Both orders agree but for one
thing: a walk takes the local bindings of an object before its other members, wherever they are
written. So the list has the printed imports, and it has them in the printed order if no import in
another member is written before one in a local binding of the same object. If no import is listed
twice, then this is also needed.
-/

namespace JsonnetTree

/-! ## The imports that a walk meets -/

namespace Expr

variable {e : Expr} {limit : Nat} {found : List ImportRef}

/-- The entry of an expression in a list of imports, if it is an import of a literal path. -/
def importRef? (e : Expr) : Option ImportRef :=
  e.import?.bind fun (kind, file) => file.literal?.map fun path => ⟨kind, path, e.location⟩

/-- The entries of all imports that can be reached, parents first and earlier children first. -/
def importRefs (e : Expr) : List ImportRef :=
  e.preorder.filterMap importRef?

/-- The entry of an expression comes before those of its children. -/
theorem importRefs_eq (e : Expr) :
    e.importRefs = e.importRef?.toList ++ e.children.flatMap importRefs := by
  rw [importRefs, preorder_eq, List.filterMap_cons, List.filterMap_flatMap]
  cases e.importRef? <;> rfl

/-- What a call that succeeds adds to the list. -/
theorem importHook_eq_ok {phase : Phase} {found' : List ImportRef}
    (h : importHook phase e found = (.ok (), found')) :
    found' = (if phase = .pre then e.importRef?.toList else []) ++ found ∧
      (phase = .pre → e.import?.isSome → e.importRef?.isSome) := by
  by_cases hphase : phase = .pre
  · cases himport : e.import? with
    | none =>
      have hcall : importHook phase e found = (.ok (), found) := by
        rw [importHook, if_pos hphase, himport]
        rfl
      obtain rfl : found = found' := (Prod.ext_iff.mp (hcall.symm.trans h)).2
      simp [importRef?, himport]
    | some entry =>
      obtain ⟨kind, file⟩ := entry
      cases hpath : file.literal? with
      | none =>
        have hcall : importHook phase e found =
            (.error (kind.keyword ++ " of a non-literal path"), found) := by
          simp only [importHook, if_pos hphase, himport, hpath]
          rfl
        cases (Prod.ext_iff.mp (hcall.symm.trans h)).1
      | some path =>
        have hcall : importHook phase e found = (.ok (), ⟨kind, path, e.location⟩ :: found) := by
          simp only [importHook, if_pos hphase, himport, hpath]
          rfl
        obtain rfl := (Prod.ext_iff.mp (hcall.symm.trans h)).2
        simp [importRef?, himport, hpath, hphase]
  · have hcall : importHook phase e found = (.ok (), found) := by
      rw [importHook, if_neg hphase]
      rfl
    obtain rfl : found = found' := (Prod.ext_iff.mp (hcall.symm.trans h)).2
    simp [hphase]

/-- Calls that succeed add the imports that they enter, the last one in front. -/
theorem accepts_importHook {visits : List Visit} {found' : List ImportRef}
    (h : importHook.Accepts found visits found') :
    found' = (((visits.filter (·.phase = .pre)).filterMap fun v => v.expr.importRef?).reverse ++
        found) ∧
      ∀ v ∈ visits, v.phase = .pre → v.expr.import?.isSome → v.expr.importRef?.isSome := by
  induction h with
  | nil found => exact ⟨rfl, by simp⟩
  | @cons found found₁ found₂ v rest hv _ ih =>
    obtain ⟨rfl, hrest⟩ := ih
    obtain ⟨rfl, hentry⟩ := importHook_eq_ok hv
    refine ⟨?_, List.forall_mem_cons.mpr ⟨hentry, hrest⟩⟩
    by_cases hphase : v.phase = .pre
    · cases hentry : v.expr.importRef? <;> simp [hphase, hentry]
    · simp [hphase]

/-- The list of imports has those that can be reached, in the order of a walk, and all their paths
are literals. -/
theorem imports_eq_ok (h : e.imports limit = .ok found) :
    found = e.importRefs ∧ ∀ a, e.Reaches a → a.import?.isSome → a.importRef?.isSome := by
  obtain ⟨calls, result, found', hends⟩ := importHook.exists_ends limit e []
  have hwalk : (e.walk importHook limit).run [] = (result, found') := hends.walk_eq
  rw [imports, hwalk] at h
  cases hends with
  | finished haccepts _ =>
    obtain rfl := Except.ok.inj h
    obtain ⟨rfl, hentries⟩ := accepts_importHook haccepts
    constructor
    · rw [List.append_nil, List.reverse_reverse, importRefs, ← map_expr_occurrences, ← pre_visits,
        List.map_map, List.filterMap_map]
      rfl
    · intro a ha
      rw [← mem_preorder_iff, ← map_expr_occurrences, ← pre_visits, List.map_map] at ha
      obtain ⟨v, hv, rfl⟩ := List.mem_map.mp ha
      rw [List.mem_filter, decide_eq_true_eq] at hv
      exact hentries v hv.1 hv.2
  | failed => cases h
  | tooDeep => cases h

/-! ## The imports that are printed -/

/-- The pieces of an expression with `text` in place of its imports. -/
def piecesAround (options : LayoutOptions) (text : Expr → Bool → List Piece) :
    Expr → (crowded : Bool) → List Piece :=
  Expr.para fun e form crowded =>
    if e.import?.isSome then text e crowded
    else (if e.form.leftmost?.isNone then fill e.fodder crowded true else []) ++
      form.pieces options crowded

/-- The imports of an expression in the order in which they are printed. -/
def printedImports : Expr → List Expr :=
  Expr.para fun e form => if e.import?.isSome then [e] else form.written.flatMap (·.2)

variable {options : LayoutOptions} {text : Expr → Bool → List Piece} {crowded : Bool}

/-- An import is replaced as a whole. -/
theorem piecesAround_of_import (h : e.import?.isSome) :
    e.piecesAround options text crowded = text e crowded := by
  rw [piecesAround, para_eq, if_pos h]

/-- What is no import is printed with the imports in it replaced. -/
theorem piecesAround_of_no_import (h : e.import? = none) :
    e.piecesAround options text crowded =
      (if e.form.leftmost?.isNone then fill e.fodder crowded true else []) ++
        e.form.piecesWith options crowded (piecesAround options text) := by
  rw [piecesAround, para_eq, if_neg (by simp [h])]
  rfl

/-- There is no import inside an import. -/
theorem printedImports_of_import (h : e.import?.isSome) : e.printedImports = [e] := by
  rw [printedImports, para_eq, if_pos h]

/-- The imports of an expression are printed with what it writes. -/
theorem printedImports_of_no_import (h : e.import? = none) :
    e.printedImports = e.form.written.flatMap printedImports := by
  rw [printedImports, para_eq, if_neg (by simp [h]), Form.written_map, List.flatMap_map]

/-- With their own texts in place of imports, an expression is printed as it is. -/
theorem piecesAround_pieces (options : LayoutOptions) (e : Expr) (crowded : Bool) :
    e.piecesAround options (fun a => a.pieces options) crowded = e.pieces options crowded := by
  induction e using induct generalizing crowded with
  | h e ih =>
    cases himport : e.import? with
    | some entry => exact piecesAround_of_import (by simp [himport])
    | none =>
      rw [piecesAround_of_no_import himport, pieces_eq]
      congr 1
      exact (e.form.hasHoles options crowded).text_congr fun a ha =>
        funext fun crowded => ih a (Form.mem_parts_of_mem_written ha) crowded

/-- Whatever the texts of its imports are, that of an expression has holes for them in the order of
`printedImports`. -/
theorem hasHoles_piecesAround (options : LayoutOptions) (e : Expr) (crowded : Bool) :
    HasHoles (fun text => e.piecesAround options text crowded) e.printedImports := by
  induction e using induct generalizing crowded with
  | h e ih =>
    cases himport : e.import? with
    | some entry =>
      have hsome : e.import?.isSome := by simp [himport]
      simp only [piecesAround_of_import hsome, printedImports_of_import hsome]
      exact .hole e crowded
    | none =>
      simp only [piecesAround_of_no_import himport, printedImports_of_no_import himport]
      exact (HasHoles.fixed _).append ((e.form.hasHoles options crowded).bind
        fun a ha => ih a (Form.mem_parts_of_mem_written ha))

end Expr

/-! ## Blocks in another order -/

section Blocks

variable {α β : Type} {items items' : List β} {f g : β → List α} {p : β → Bool}

/-- Some blocks can be taken to the front if that moves nothing past anything. -/
theorem flatMap_filter_append_flatMap_filter
    (h : items.Pairwise fun a b => p b → ¬p a → f a = [] ∨ f b = []) :
    (items.filter p).flatMap f ++ (items.filter (!p ·)).flatMap f = items.flatMap f := by
  induction items with
  | nil => rfl
  | cons a rest ih =>
    obtain ⟨ha, hrest⟩ := List.pairwise_cons.mp h
    by_cases hp : p a
    · simp [hp, ih hrest]
    · have hmoved : f a = [] ∨ (rest.filter p).flatMap f = [] := by
        by_cases hnil : f a = []
        · exact .inl hnil
        · refine .inr (List.flatMap_eq_nil_iff.mpr fun b hb => ?_)
          obtain ⟨hb, hpb⟩ := List.mem_filter.mp hb
          exact (ha b hb hpb hp).resolve_left hnil
      rcases hmoved with hnil | hnil
      · simp [hp, hnil, ih hrest]
      · have hothers := ih hrest
        rw [hnil, List.nil_append] at hothers
        simp [hp, hnil, hothers]

/-- If nothing occurs twice and taking some blocks to the front changes nothing, then it moves
nothing past anything. -/
theorem pairwise_of_flatMap_filter_append (hnodup : (items.flatMap f).Nodup)
    (h : (items.filter p).flatMap f ++ (items.filter (!p ·)).flatMap f = items.flatMap f) :
    items.Pairwise fun a b => p b → ¬p a → f a = [] ∨ f b = [] := by
  induction items with
  | nil => exact .nil
  | cons a rest ih =>
    rw [List.flatMap_cons, List.nodup_append'] at hnodup
    obtain ⟨-, hrest, hdisjoint⟩ := hnodup
    by_cases hp : p a
    · have hcancel : (rest.filter p).flatMap f ++ (rest.filter (!p ·)).flatMap f =
          rest.flatMap f := by
        simpa [hp] using h
      exact List.pairwise_cons.mpr ⟨fun b _ _ hnot => absurd hp hnot, ih hrest hcancel⟩
    · have hmoved : (rest.filter p).flatMap f ++ (f a ++ (rest.filter (!p ·)).flatMap f) =
          f a ++ rest.flatMap f := by
        simpa [hp] using h
      -- Otherwise the lists would start with something from the rest and with something from `a`.
      have hempty : f a = [] ∨ (rest.filter p).flatMap f = [] := by
        cases hfront : (rest.filter p).flatMap f with
        | nil => exact .inr rfl
        | cons y ys =>
          cases hblock : f a with
          | nil => exact .inl rfl
          | cons x xs =>
            rw [hfront, hblock] at hmoved
            have hy : y ∈ rest.flatMap f := by
              have hy : y ∈ (rest.filter p).flatMap f := hfront ▸ List.mem_cons_self
              obtain ⟨b, hb, hy⟩ := List.mem_flatMap.mp hy
              exact List.mem_flatMap.mpr ⟨b, (List.mem_filter.mp hb).1, hy⟩
            have hx : y ∈ f a := by
              rw [hblock, (List.cons.inj hmoved).1]
              exact List.mem_cons_self
            exact absurd hy (hdisjoint hx)
      have hcancel : (rest.filter p).flatMap f ++ (rest.filter (!p ·)).flatMap f =
          rest.flatMap f := by
        rcases hempty with hnil | hnil
        · simpa [hnil] using hmoved
        · simpa [hnil] using hmoved
      refine List.pairwise_cons.mpr ⟨fun b hb hpb _ => ?_, ih hrest hcancel⟩
      exact hempty.imp_right fun hnil =>
        List.flatMap_eq_nil_iff.mp hnil b (List.mem_filter.mpr ⟨hb, hpb⟩)

/-- In a list without repetitions, a block is told by its members. -/
theorem filter_mem_flatMap [DecidableEq α] (hnodup : (items.flatMap f).Nodup) {b : β}
    (hb : b ∈ items) : (items.flatMap f).filter (· ∈ f b) = f b := by
  obtain ⟨before, after, rfl⟩ := List.append_of_mem hb
  rw [List.flatMap_append, List.flatMap_cons, List.nodup_append', List.nodup_append'] at hnodup
  obtain ⟨-, ⟨-, -, hafter⟩, hbefore⟩ := hnodup
  have hnoneBefore : (before.flatMap f).filter (· ∈ f b) = [] :=
    List.filter_eq_nil_iff.mpr fun a ha hmem =>
      hbefore ha (List.mem_append_left _ (of_decide_eq_true hmem))
  have hnoneAfter : (after.flatMap f).filter (· ∈ f b) = [] :=
    List.filter_eq_nil_iff.mpr fun a ha hmem => hafter (of_decide_eq_true hmem) ha
  have hall : (f b).filter (· ∈ f b) = f b :=
    List.filter_eq_self.mpr fun a ha => decide_eq_true ha
  rw [List.flatMap_append, List.flatMap_cons, List.filter_append, List.filter_append, hnoneBefore,
    hnoneAfter, hall, List.nil_append, List.append_nil]

/-- If the blocks of a list without repetitions are the same up to order in another list that is
equal to it, then they are equal. -/
theorem eq_of_flatMap_eq_flatMap (hperm : items.Perm items')
    (hblocks : ∀ b ∈ items, (f b).Perm (g b)) (hnodup : (items.flatMap f).Nodup)
    (h : items.flatMap f = items'.flatMap g) : ∀ b ∈ items, f b = g b := by
  classical
  intro b hb
  have hfilter : (items'.flatMap g).filter (· ∈ g b) = g b :=
    filter_mem_flatMap (h ▸ hnodup) (hperm.mem_iff.mp hb)
  rw [← filter_mem_flatMap hnodup hb, h, ← hfilter]
  exact List.filter_congr fun a _ => by simp [(hblocks b hb).mem_iff]

end Blocks

/-! ## Both orders -/

/-- The entries of the imports in a member. -/
def Member.importRefs (m : Member Expr) : List ImportRef :=
  m.exprs.flatMap Expr.importRefs

/-- No import is written before one in a local binding of the same object, unless it is in a local
binding itself. -/
def Form.LocalImportsFirst (form : Form Expr) : Prop :=
  form.members.Pairwise fun m m' =>
    m'.isLocal → ¬m.isLocal → m.importRefs = [] ∨ m'.importRefs = []

instance (form : Form Expr) : Decidable form.LocalImportsFirst :=
  inferInstanceAs (Decidable (form.members.Pairwise _))

namespace Form.WritesChildren

variable {form : Form Expr}

/-- If no import is moved past another one, then the children come in the order in which they are
written, as far as imports tell. -/
theorem flatMap_importRefs_eq (h : form.WritesChildren) (hfirst : form.LocalImportsFirst) :
    form.children.flatMap Expr.importRefs = form.written.flatMap Expr.importRefs := by
  obtain ⟨rest, hwritten, hchildren⟩ := h
  rw [hwritten, hchildren, List.flatMap_append, List.flatMap_append, Member.allExprs,
    List.flatMap_append, List.flatMap_assoc, List.flatMap_assoc, List.flatMap_assoc]
  exact congrArg (· ++ _) (flatMap_filter_append_flatMap_filter hfirst)

/-- If no import occurs twice, then nothing else brings the children into that order. -/
theorem localImportsFirst (h : form.WritesChildren)
    (hnodup : (form.children.flatMap Expr.importRefs).Nodup)
    (heq : form.children.flatMap Expr.importRefs = form.written.flatMap Expr.importRefs) :
    form.LocalImportsFirst := by
  obtain ⟨rest, hwritten, hchildren⟩ := h
  rw [heq, hwritten, List.flatMap_append, List.flatMap_assoc] at hnodup
  rw [hwritten, hchildren, List.flatMap_append, List.flatMap_append, Member.allExprs,
    List.flatMap_append, List.flatMap_assoc, List.flatMap_assoc, List.flatMap_assoc] at heq
  exact pairwise_of_flatMap_filter_append hnodup.of_append_left (List.append_cancel_right heq)

end Form.WritesChildren

namespace Expr

variable {e : Expr}

/-- Every expression that can be reached writes its children, unless it is an import. -/
def WritesAll (e : Expr) : Prop :=
  ∀ a, e.Reaches a → a.import? = none → a.form.WritesChildren

/-- What can be reached from a child can be reached from its parent. -/
theorem WritesAll.child {c : Expr} (h : e.WritesAll) (hc : c ∈ e.children) : c.WritesAll :=
  fun a ha => h a (.child hc ha)

/-- The entries of the imports of an expression in the order in which they are printed. -/
def printedRefs (e : Expr) : List ImportRef :=
  e.printedImports.filterMap importRef?

/-- Where an expression is no import, those of its children are listed. -/
theorem importRefs_of_no_import (h : e.import? = none) :
    e.importRefs = e.children.flatMap importRefs := by
  simp [importRefs_eq e, importRef?, h]

/-- Where an expression is no import, those in what it writes are printed. -/
theorem printedRefs_of_no_import (h : e.import? = none) :
    e.printedRefs = e.form.written.flatMap printedRefs := by
  rw [printedRefs, printedImports_of_no_import h, List.filterMap_flatMap]
  rfl

/-- An import is listed and printed once. -/
theorem importRefs_of_import (h : e.import?.isSome) : e.importRefs = e.printedRefs := by
  obtain ⟨⟨kind, file⟩, himport⟩ := Option.isSome_iff_exists.mp h
  rw [importRefs_eq, (form_of_import? himport).2.2, printedRefs, printedImports_of_import h]
  cases hentry : e.importRef? <;> simp [hentry]

/-- The imports that are listed are those that are printed. -/
theorem importRefs_perm_printedRefs (hwrites : e.WritesAll) :
    e.importRefs.Perm e.printedRefs := by
  induction e using induct_children with
  | h e ih =>
    cases himport : e.import? with
    | some entry => rw [importRefs_of_import (by simp [himport])]
    | none =>
      rw [importRefs_of_no_import himport, printedRefs_of_no_import himport]
      exact (List.Perm.flatMap_left _ fun c hc => ih c hc (hwrites.child hc)).trans
        ((hwrites e (.refl e) himport).perm.symm.flatMap_right _)

/-- Only imports that can be reached are printed as imports. -/
theorem mem_printedImports (hwrites : e.WritesAll) {a : Expr} (ha : a ∈ e.printedImports) :
    e.Reaches a ∧ a.import?.isSome := by
  induction e using induct_children with
  | h e ih =>
    cases himport : e.import? with
    | some entry =>
      have hsome : e.import?.isSome := by simp [himport]
      rw [printedImports_of_import hsome, List.mem_singleton] at ha
      subst ha
      exact ⟨.refl a, hsome⟩
    | none =>
      rw [printedImports_of_no_import himport] at ha
      obtain ⟨c, hc, ha⟩ := List.mem_flatMap.mp ha
      have hc : c ∈ e.children := (hwrites e (.refl e) himport).perm.mem_iff.mp hc
      obtain ⟨hreach, hsome⟩ := ih c hc (hwrites.child hc) ha
      exact ⟨.child hc hreach, hsome⟩

/-- If the paths of all imports are literals, then every import that is printed has an entry. -/
theorem map_importRef?_printedImports (hwrites : e.WritesAll)
    (hfiles : ∀ a, e.Reaches a → a.import?.isSome → a.importRef?.isSome) :
    e.printedImports.map importRef? = e.printedRefs.map some := by
  rw [printedRefs, List.map_filterMap, eq_comm, List.filterMap_eq_map_iff_forall_eq_some]
  intro a ha
  obtain ⟨hreach, hsome⟩ := mem_printedImports hwrites ha
  obtain ⟨entry, hentry⟩ := Option.isSome_iff_exists.mp (hfiles a hreach hsome)
  rw [hentry, Option.map_some]

/-- If no import is moved past another one, then the imports are listed as they are printed. -/
theorem importRefs_eq_printedRefs (hwrites : e.WritesAll)
    (hfirst : ∀ a, e.Reaches a → a.form.LocalImportsFirst) : e.importRefs = e.printedRefs := by
  induction e using induct_children with
  | h e ih =>
    cases himport : e.import? with
    | some entry => exact importRefs_of_import (by simp [himport])
    | none =>
      have hform := hwrites e (.refl e) himport
      rw [importRefs_of_no_import himport, printedRefs_of_no_import himport, children,
        hform.flatMap_importRefs_eq (hfirst e (.refl e))]
      refine List.flatMap_congr fun c hc => ?_
      have hc : c ∈ e.children := hform.perm.mem_iff.mp hc
      exact ih c hc (hwrites.child hc) fun a ha => hfirst a (.child hc ha)

/-- If no import occurs twice, then the imports are listed as they are printed only if no import is
moved past another one. -/
theorem localImportsFirst_of_importRefs_eq (hwrites : e.WritesAll) (hnodup : e.importRefs.Nodup)
    (heq : e.importRefs = e.printedRefs) {a : Expr} (ha : e.Reaches a) :
    a.form.LocalImportsFirst := by
  induction e using induct_children with
  | h e ih =>
    cases himport : e.import? with
    | some entry =>
      obtain ⟨-, hmembers, hchildren⟩ := form_of_import? himport
      obtain rfl : a = e := by simpa [hchildren] using reaches_iff.mp ha
      rw [Form.LocalImportsFirst, hmembers]
      exact .nil
    | none =>
      have hform := hwrites e (.refl e) himport
      rw [importRefs_of_no_import himport] at hnodup
      rw [importRefs_of_no_import himport, printedRefs_of_no_import himport] at heq
      -- The imports of each child come together in both lists, so they are in the same order.
      have hchild : ∀ c ∈ e.children, c.importRefs = c.printedRefs :=
        eq_of_flatMap_eq_flatMap hform.perm.symm
          (fun c hc => importRefs_perm_printedRefs (hwrites.child hc)) hnodup heq
      rcases reaches_iff.mp ha with rfl | ⟨c, hc, ha⟩
      · refine hform.localImportsFirst hnodup (heq.trans ?_)
        exact List.flatMap_congr fun c hc => (hchild c (hform.perm.mem_iff.mp hc)).symm
      · exact ih c hc (hwrites.child hc) ((List.nodup_flatMap.mp hnodup).1 c hc) (hchild c hc) ha

end Expr

/-! ## Whole trees -/

namespace Tree

variable {t : Tree} {options : LayoutOptions} {limit limit' : Nat} {found : List ImportRef}
  {text : String}

/-- The pieces of a tree with `text` in place of its imports. -/
def piecesAround (options : LayoutOptions) (text : Expr → Bool → List Piece) (t : Tree) :
    List Piece :=
  t.root.piecesAround options text false ++ fill t.finalFodder true false ++ [.newlines 1]

/-- With their own texts in place of imports, a tree is printed as it is. -/
theorem piecesAround_pieces (options : LayoutOptions) (t : Tree) :
    t.piecesAround options (fun e => e.pieces options) = t.pieces options := by
  rw [piecesAround, Expr.piecesAround_pieces, pieces]

/-- The text of a tree has a hole for each of its imports, in the order in which they are printed.
-/
theorem hasHoles_piecesAround (options : LayoutOptions) (t : Tree) :
    HasHoles (fun text => t.piecesAround options text) t.root.printedImports :=
  ((t.root.hasHoles_piecesAround options false).append_fixed _).append_fixed _

/-- A tree as it is written that can be printed writes all its expressions. -/
theorem writesAll_of_print (hraw : t.shape = .raw) (hshape : t.checkShape = .ok ())
    (hshows : ∀ a, t.root.Reaches a → a.form.ShowsChildren)
    (hfiles : ∀ a, t.root.Reaches a → a.import?.isSome → a.importRef?.isSome)
    (hprint : t.print options limit = .ok text) : t.root.WritesAll := by
  have hfits : t.root.Fits .raw := hraw ▸ checkShape_eq_ok_iff.mp hshape
  have hnotes : none ∉ t.root.notes := by
    simpa [notes_pieces] using (print_eq_ok hprint).1
  have hliteral : ∀ a kind file, t.root.Reaches a → a.import? = some (kind, file) →
      file.literal?.isSome := by
    intro a kind file ha hfile
    simpa [Expr.importRef?, hfile] using hfiles a ha (by simp [hfile])
  rw [Expr.none_mem_notes_iff_reaches hfits hliteral hshows] at hnotes
  intro a ha himport
  exact Expr.writesChildren (hfits a ha) himport (fun ⟨body, h⟩ => hnotes ⟨a, body, ha, h⟩)
    (hshows a ha)

/-- Whatever the texts of its imports are, that of a tree as it is written comes from one template
and no other. The imports that are listed are those of its holes. They are listed in the order of
the holes if no import is written before one in a local binding of the same object, other than in a
local binding. If no import is listed twice, then they are listed in that order only if this is
so. -/
theorem imports_of_print (hraw : t.shape = .raw) (hshape : t.checkShape = .ok ())
    (hshows : ∀ a, t.root.Reaches a → a.form.ShowsChildren)
    (himports : t.root.imports limit = .ok found) (hprint : t.print options limit' = .ok text) :
    ∃ template : Template,
      (∀ template' : Template, (∀ print, t.piecesAround options print = template'.plug print) ↔
        template' = template) ∧
      text = String.ofList
        ((template.plug fun e crowded => e.pieces options crowded).flatMap Piece.chars) ∧
      (template.holes.map Expr.importRef?).Perm (found.map some) ∧
      ((∀ a, t.root.Reaches a → a.form.LocalImportsFirst) →
        template.holes.map Expr.importRef? = found.map some) ∧
      (found.Nodup → template.holes.map Expr.importRef? = found.map some →
        ∀ a, t.root.Reaches a → a.form.LocalImportsFirst) := by
  obtain ⟨rfl, hfiles⟩ := Expr.imports_eq_ok himports
  have hwrites := writesAll_of_print hraw hshape hshows hfiles hprint
  obtain ⟨template, hholes, htext⟩ := (t.hasHoles_piecesAround options).existsUnique
  have hown : t.pieces options = template.plug fun e crowded => e.pieces options crowded :=
    (t.piecesAround_pieces options).symm.trans ((htext template).mpr rfl _)
  refine ⟨template, htext, hown ▸ (print_eq_ok hprint).2, ?_⟩
  rw [hholes, Expr.map_importRef?_printedImports hwrites hfiles]
  refine ⟨((Expr.importRefs_perm_printedRefs hwrites).map some).symm, fun hfirst => ?_,
    fun hnodup heq a => ?_⟩
  · rw [Expr.importRefs_eq_printedRefs hwrites hfirst]
  · have heq := List.map_injective_iff.mpr (Option.some_injective _) heq
    exact Expr.localImportsFirst_of_importRefs_eq hwrites hnodup heq.symm

/-- An object whose local binding comes first. Its imports are listed as they are printed. -/
theorem imports_of_print_localFirst :
    let t : Tree := ⟨.raw, Build.object [Build.objectLocal "b" (Build.importText "b.txt"),
      Build.fieldId "a" .inherit (Build.array [Build.importCode "a.libsonnet", Build.var "b"])], []⟩
    ∃ template : Template, (∀ print, t.piecesAround {} print = template.plug print) ∧
      template.holes.map Expr.importRef? =
        [some ⟨.text, "b.txt", .unset⟩, some ⟨.code, "a.libsonnet", .unset⟩] := by
  intro t
  have hall : ∀ a ∈ t.root.preorder, a.form.ShowsChildren ∧ a.form.LocalImportsFirst := by
    decide +kernel
  have himports : t.root.imports 512 =
      .ok [⟨.text, "b.txt", .unset⟩, ⟨.code, "a.libsonnet", .unset⟩] := by decide +kernel
  have hprint : t.print {} 512 =
      .ok "\x7b local b = importstr \"b.txt\", a: [import \"a.libsonnet\", b] \x7d\n" := by
    decide +kernel
  obtain ⟨template, hunique, -, -, hordered, -⟩ := imports_of_print rfl (by decide +kernel)
    (fun a ha => (hall a (Expr.mem_preorder_iff.mpr ha)).1) himports hprint
  exact ⟨template, (hunique template).mpr rfl,
    hordered fun a ha => (hall a (Expr.mem_preorder_iff.mpr ha)).2⟩

/-- An object whose local binding comes last. Its import is listed before the one that is printed
before it. -/
theorem imports_localLast :
    let t : Tree := ⟨.raw, Build.object [
      Build.fieldId "a" .inherit (Build.importCode "a.libsonnet"),
      Build.objectLocal "b" (Build.importCode "b.libsonnet")], []⟩
    t.checkShape = .ok () ∧ (∀ a, t.root.Reaches a → a.form.ShowsChildren) ∧
      t.print {} 512 =
        .ok "\x7b a: import \"a.libsonnet\", local b = import \"b.libsonnet\" \x7d\n" ∧
      t.root.imports 512 =
        .ok [⟨.code, "b.libsonnet", .unset⟩, ⟨.code, "a.libsonnet", .unset⟩] ∧
      ∀ template : Template, (∀ print, t.piecesAround {} print = template.plug print) →
        template.holes.map Expr.importRef? =
          [some ⟨.code, "a.libsonnet", .unset⟩, some ⟨.code, "b.libsonnet", .unset⟩] := by
  intro t
  have hall : ∀ a ∈ t.root.preorder, a.form.ShowsChildren := by decide +kernel
  refine ⟨by decide +kernel, fun a ha => hall a (Expr.mem_preorder_iff.mpr ha),
    by decide +kernel, by decide +kernel, ?_⟩
  intro template htext
  obtain ⟨template', hholes, hunique⟩ := (t.hasHoles_piecesAround {}).existsUnique
  obtain rfl := (hunique template).mp htext
  rw [hholes]
  rfl

end Tree

end JsonnetTree
