import JsonnetTree.Proofs.Graph

/-!
# Labels in graphs

A vertex of a drawn graph is known by its label alone. The label of an expression tells its
location, but the name of a field is drawn with the location of the field, where it stands between
the object and the body (`Expr.drawnAt`). If the name has children of its own, then it is drawn once
more, above them, and with its own location. So every number has one label if and only if such names
stand where their fields do (`Expr.labelsAgree_iff`), and only then do the edges lead from label to
label through the whole graph.
-/

namespace JsonnetTree

/-- The ends of all edges. -/
def ends (edges : List Edge) : List Vertex :=
  edges.flatMap fun edge => [edge.source, edge.target]

/-- All ends of edges with the same number have the same label. -/
def LabelsAgree (edges : List Edge) : Prop :=
  ∀ v ∈ ends edges, ∀ w ∈ ends edges, v.id = w.id → v.label = w.label

instance (edges : List Edge) : Decidable (LabelsAgree edges) :=
  inferInstanceAs (Decidable (∀ v ∈ ends edges, ∀ w ∈ ends edges, v.id = w.id → v.label = w.label))

/-- An edge is drawn from one label to another. -/
def Linked (edges : List Edge) (a b : String) : Prop :=
  ∃ edge ∈ edges, edge.source.label = a ∧ edge.target.label = b

/-- The ends of edges are their sources and targets. -/
theorem mem_ends_iff {edges : List Edge} {v : Vertex} :
    v ∈ ends edges ↔ ∃ edge ∈ edges, v = edge.source ∨ v = edge.target := by
  simp [ends]

/-- The ends of the first edge come first. -/
theorem ends_cons (edge : Edge) (edges : List Edge) :
    ends (edge :: edges) = [edge.source, edge.target] ++ ends edges := rfl

/-- The ends of edges are listed edge by edge. -/
theorem ends_append (edges edges' : List Edge) :
    ends (edges ++ edges') = ends edges ++ ends edges' := List.flatMap_append

/-! ## The locations that expressions are drawn with -/

namespace Expr

/-- The locations that the children of an expression are drawn with: those of the fields for their
names, and its own for every other child. -/
def drawnAt (e : Expr) : List Location :=
  match e.form with
  | .loweredObject o => o.fields.map (·.location) ++ e.form.deferred.map (·.location)
  | _ => e.children.map (·.location)

/-- Every name of a field that has children stands where the field does, as far as labels tell. -/
def NamesPlaced (e : Expr) : Prop :=
  ∀ a o, e.Reaches a → a.form = .loweredObject o → ∀ d ∈ o.fields, d.name.children ≠ [] →
    d.location.render = d.name.location.render

/-- The children of a lowered object are drawn where the fields stand and where they stand
themselves. -/
theorem drawnAt_of_loweredObject {e : Expr} {o : LoweredObject Expr}
    (h : e.form = .loweredObject o) :
    e.drawnAt = o.fields.map (·.location) ++ e.form.deferred.map (·.location) := by
  rw [drawnAt, h]

/-- The children of any other expression are drawn where they stand. -/
theorem drawnAt_of_other {e : Expr} (h : ∀ o, e.form ≠ .loweredObject o) :
    e.drawnAt = e.children.map (·.location) := by
  unfold drawnAt
  split
  next o hform => exact absurd hform (h o)
  next => rfl

/-- Every child is drawn. -/
theorem length_drawnAt (e : Expr) : e.drawnAt.length = e.children.length := by
  by_cases hobject : ∃ o, e.form = .loweredObject o
  · obtain ⟨o, hform⟩ := hobject
    simp [drawnAt_of_loweredObject hform, children, hform, Form.children, Form.operands]
  · simp [drawnAt_of_other (not_exists.mp hobject)]

/-- The children of an expression with children are drawn where they stand, unless they are names
of fields. -/
theorem namesPlaced_iff {e : Expr} :
    e.NamesPlaced ↔ ∀ a, e.Reaches a → ∀ p ∈ a.children.zip a.drawnAt, p.1.children ≠ [] →
      p.2.render = p.1.location.render := by
  refine forall_congr' fun a => ?_
  rw [forall_comm]
  refine forall_congr' fun _ => ?_
  by_cases hobject : ∃ o, a.form = .loweredObject o
  · obtain ⟨o, hform⟩ := hobject
    have hzip : a.children.zip a.drawnAt = o.fields.map (fun d => (d.name, d.location)) ++
        a.form.deferred.map fun c => (c, c.location) := by
      rw [drawnAt_of_loweredObject hform, children, Form.children, hform, Form.operands,
        List.zip_append (by simp), List.zip_map', List.map_prod_left_eq_zip]
    simp only [hform, Form.loweredObject.injEq, forall_eq', hzip, List.forall_mem_append,
      List.forall_mem_map, implies_true, and_true]
  · have hother := not_exists.mp hobject
    rw [drawnAt_of_other hother, ← List.map_prod_left_eq_zip]
    simp only [List.forall_mem_map, implies_true, iff_true]
    exact fun o hform => absurd hform (hother o)

end Expr

/-! ## The ends of the edges of one expression -/

namespace Numbered

variable {n : Numbered} {v : Vertex}

/-- A label tells the location that an expression is drawn with. -/
theorem label_vertexAt_eq_iff {location : Location} :
    (n.vertexAt location).label = n.vertex.label ↔
      location.render = n.expr.location.render := by
  simp only [vertex, vertexAt, Expr.label, String.append_left_inj, String.append_right_inj]

/-- The edges of a field end at the object, at the name and at the body. -/
theorem mem_ends_fieldEdges {source : Vertex} {d : LoweredField Expr} {name body : Numbered} :
    v ∈ ends (fieldEdges source d name body) ↔
      v = source ∨ v = name.vertexAt d.location ∨ v = body.vertex := by
  simp only [ends, fieldEdges, List.flatMap_cons, List.flatMap_nil, List.append_nil,
    List.cons_append, List.nil_append, List.mem_cons, List.not_mem_nil, or_false]
  tauto

/-- The edges of several fields end at the object, at the names and at the bodies. -/
theorem mem_ends_fields (source : Vertex) {ds : List (LoweredField Expr)}
    {names bodies : List Numbered} (hnames : names.length = ds.length)
    (hbodies : bodies.length = ds.length) :
    v ∈ ends ((ds.zip (names.zip bodies)).flatMap fun (d, name, body) =>
        fieldEdges source d name body) ↔
      (bodies ≠ [] ∧ v = source) ∨
        (∃ p ∈ names.zip (ds.map (·.location)), v = p.1.vertexAt p.2) ∨
        ∃ body ∈ bodies, v = body.vertex := by
  induction ds generalizing names bodies with
  | nil =>
    obtain rfl := List.length_eq_zero_iff.mp hnames
    obtain rfl := List.length_eq_zero_iff.mp hbodies
    simp [ends]
  | cons d ds ih =>
    obtain ⟨name, names, rfl⟩ := List.exists_cons_of_length_eq_add_one hnames
    obtain ⟨body, bodies, rfl⟩ := List.exists_cons_of_length_eq_add_one hbodies
    have hrest := ih (Nat.succ.inj hnames) (Nat.succ.inj hbodies)
    rw [List.zip_cons_cons, List.zip_cons_cons, List.flatMap_cons, ends_append, List.mem_append,
      hrest, mem_ends_fieldEdges, List.map_cons, List.zip_cons_cons]
    simp only [List.exists_mem_cons_iff, ne_eq, reduceCtorEq, not_false_eq_true, true_and]
    clear ih hrest
    grind

/-- Edges to children end at the expression and at the children. -/
theorem mem_ends_map (source : Vertex) (children : List Numbered) :
    v ∈ ends (children.map fun child => ⟨source, child.vertex⟩) ↔
      (children ≠ [] ∧ v = source) ∨ ∃ child ∈ children, v = child.vertex := by
  induction children with
  | nil => simp [ends]
  | cons child children ih =>
    rw [List.map_cons, ends_cons, List.mem_append, ih, List.exists_mem_cons_iff, List.mem_pair]
    simp only [ne_eq, reduceCtorEq, not_false_eq_true, true_and]
    tauto

/-- Children that are drawn with their own locations. -/
theorem exists_mem_zip_location {children : List Numbered} :
    (∃ p ∈ children.zip (children.map (·.expr.location)), v = p.1.vertexAt p.2) ↔
      ∃ child ∈ children, v = child.vertex := by
  rw [← List.map_prod_left_eq_zip]
  simp [vertex]

/-- If a numbered lowered object has all its children, then these are the names and the bodies of
its fields, and then all others. -/
theorem exists_children_eq_append {o : LoweredObject Expr}
    (h : n.children.map (·.expr) = n.expr.children) (hform : n.expr.form = .loweredObject o) :
    ∃ names bodies others, n.children = names ++ (bodies ++ others) ∧
      names.length = o.fields.length ∧ bodies.length = o.fields.length ∧
      (bodies ++ others).map (·.expr) = n.expr.form.deferred := by
  obtain ⟨names, rest, hsplit, hnames, hrest⟩ := List.map_eq_append_iff.mp h
  have hdeferred :
      rest.map (·.expr) = o.fields.map (·.body) ++ (o.locals.map (·.body) ++ o.asserts) := by
    rw [hrest, hform, Form.deferred, List.append_assoc]
  obtain ⟨bodies, others, rfl, hbodies, -⟩ := List.map_eq_append_iff.mp hdeferred
  refine ⟨names, bodies, others, hsplit, ?_, ?_, hrest⟩
  · simpa [hform, Form.operands] using congrArg List.length hnames
  · simpa using congrArg List.length hbodies

/-- If a numbered expression has all its children, then its edges end at the expression itself and
at its children, where they are drawn. -/
theorem mem_ends_edgesHere (h : n.children.map (·.expr) = n.expr.children) :
    v ∈ ends n.edgesHere ↔ (n.children ≠ [] ∧ v = n.vertex) ∨
      ∃ p ∈ n.children.zip n.expr.drawnAt, v = p.1.vertexAt p.2 := by
  unfold edgesHere
  split
  next o hform =>
    obtain ⟨names, bodies, others, hsplit, hnames, hbodies, hdeferred⟩ :=
      exists_children_eq_append h hform
    have hothers : n.children.drop (2 * o.fields.length) = others := by
      rw [hsplit, Nat.two_mul, ← List.drop_drop, List.drop_left' hnames, List.drop_left' hbodies]
    have hdrawn : n.expr.drawnAt =
        o.fields.map (·.location) ++ (bodies ++ others).map (·.expr.location) := by
      rw [Expr.drawnAt_of_loweredObject hform, ← hdeferred, List.map_map]
      rfl
    have hnil : names ++ (bodies ++ others) ≠ [] ↔ bodies ≠ [] ∨ others ≠ [] := by
      have hboth : names = [] ↔ bodies = [] := by
        rw [← List.length_eq_zero_iff, hnames, ← hbodies, List.length_eq_zero_iff]
      simp only [ne_eq, List.append_eq_nil_iff, hboth]
      tauto
    dsimp only
    rw [hothers, hdrawn, hsplit, List.take_left' hnames, List.drop_left' hnames,
      List.take_left' hbodies, List.zip_append (by simp [hnames]), ends_append, List.mem_append,
      mem_ends_fields n.vertex hnames hbodies, mem_ends_map, hnil]
    simp only [List.mem_append, or_and_right, exists_or, exists_mem_zip_location]
    grind
  next hother =>
    rw [Expr.drawnAt_of_other hother, ← h, List.map_map]
    exact (mem_ends_map n.vertex n.children).trans (or_congr_right exists_mem_zip_location.symm)

/-- The ends of all edges are those of the edges of each expression. -/
theorem mem_ends_edges : v ∈ ends n.edges ↔ ∃ m ∈ n.toList, v ∈ ends m.edgesHere := by
  simp only [mem_ends_iff, n.edges_perm.mem_iff, List.mem_flatMap]
  constructor
  · rintro ⟨edge, ⟨m, hm, hedge⟩, hv⟩
    exact ⟨m, hm, edge, hedge, hv⟩
  · rintro ⟨m, hm, edge, hedge, hv⟩
    exact ⟨edge, ⟨m, hm, hedge⟩, hv⟩

end Numbered

/-! ## The ends of the edges of a tree -/

namespace Expr

variable {e a : Expr} {next : Nat}

/-- A part of a numbered tree has all its children. -/
theorem map_expr_children_of_mem {m : Numbered} (h : m ∈ (e.number next).1.toList) :
    m.children.map (·.expr) = m.expr.children := by
  rw [eq_number_of_mem h, expr_number, map_expr_children_number]

/-- The expressions that are numbered are those that can be reached. -/
theorem reaches_iff_numbered (next : Nat) :
    e.Reaches a ↔ ∃ m ∈ (e.number next).1.toList, m.expr = a := by
  have hlist : (e.number next).1.toList.map (·.expr) = e.preorder := by
    have hentries := congrArg (List.map Prod.fst) (e.map_entry_number next).1
    rwa [List.map_map, List.zipIdx_map_fst] at hentries
  rw [← mem_preorder_iff, ← hlist, List.mem_map]

/-- No number is given twice. -/
theorem eq_of_id_eq {m m' : Numbered} (hm : m ∈ (e.number next).1.toList)
    (hm' : m' ∈ (e.number next).1.toList) (h : m.id = m'.id) : m = m' := by
  have hnodup : ((e.number next).1.toList.map Numbered.id).Nodup := by
    rw [map_id_number]
    exact List.nodup_range' ..
  exact List.inj_on_of_nodup_map hnodup hm hm' h

/-- A number is drawn below one expression only, and there at one location. -/
theorem drawnAt_unique {m m' : Numbered} {p p' : Numbered × Location}
    (hm : m ∈ (e.number next).1.toList) (hm' : m' ∈ (e.number next).1.toList)
    (hp : p ∈ m.children.zip m.expr.drawnAt) (hp' : p' ∈ m'.children.zip m'.expr.drawnAt)
    (h : p.1.id = p'.1.id) : p = p' := by
  have hids : (((e.number next).1.toList.flatMap fun m => m.children.zip m.expr.drawnAt).map
      (·.1.id)) = (e.number next).1.toList.flatMap fun m => m.children.map Numbered.id := by
    rw [List.map_flatMap]
    refine List.flatMap_congr fun m hm => ?_
    have hlength : m.children.length ≤ m.expr.drawnAt.length := by
      rw [length_drawnAt, ← map_expr_children_of_mem hm, List.length_map]
    have hfst := congrArg (List.map Numbered.id) (List.map_fst_zip hlength)
    rwa [List.map_map] at hfst
  have hnodup : ((e.number next).1.toList.flatMap fun m => m.children.map Numbered.id).Nodup := by
    have hall := (e.number next).1.map_id_toList_perm
    rw [map_id_number] at hall
    exact (List.nodup_cons.mp (hall.nodup_iff.mp (List.nodup_range' ..))).2
  rw [← hids] at hnodup
  exact List.inj_on_of_nodup_map hnodup (List.mem_flatMap.mpr ⟨m, hm, hp⟩)
    (List.mem_flatMap.mpr ⟨m', hm', hp'⟩) h

/-- What is drawn below an expression has a number. -/
theorem mem_number_of_drawn {m : Numbered} {p : Numbered × Location}
    (hm : m ∈ (e.number next).1.toList) (hp : p ∈ m.children.zip m.expr.drawnAt) :
    p.1 ∈ (e.number next).1.toList :=
  Numbered.mem_toList_of_mem_children hm (List.of_mem_zip (a := p.1) (b := p.2) hp).1

/-- Every end of an edge is an expression with children, at its own location, or a child where it is
drawn. -/
theorem mem_ends_iff_drawn {v : Vertex} :
    v ∈ ends (e.number next).1.edges ↔
      (∃ m ∈ (e.number next).1.toList, m.children ≠ [] ∧ v = m.vertex) ∨
        ∃ m ∈ (e.number next).1.toList, ∃ p ∈ m.children.zip m.expr.drawnAt,
          v = p.1.vertexAt p.2 := by
  rw [Numbered.mem_ends_edges, ← exists_or]
  refine exists_congr fun m => ?_
  rw [← and_or_left]
  exact and_congr_right fun hm => Numbered.mem_ends_edgesHere (map_expr_children_of_mem hm)

/-- The labels agree if and only if the names of fields that have children stand where their fields
do. -/
theorem labelsAgree_iff (e : Expr) (next : Nat) :
    LabelsAgree (e.number next).1.edges ↔ e.NamesPlaced := by
  rw [namesPlaced_iff]
  constructor
  · intro hlabels a ha q hq hchildren
    obtain ⟨m, hm, rfl⟩ := (reaches_iff_numbered next).mp ha
    -- The child is drawn below `m`, and with its own location above its children.
    rw [← map_expr_children_of_mem hm, List.zip_map_left] at hq
    obtain ⟨p, hp, rfl⟩ := List.mem_map.mp hq
    have hchild := mem_number_of_drawn hm hp
    have hbelow : p.1.children ≠ [] := by
      intro hnil
      have hnone : p.1.expr.children = [] := by
        rw [← map_expr_children_of_mem hchild, hnil, List.map_nil]
      exact hchildren hnone
    have hdrawn : p.1.vertexAt p.2 ∈ ends (e.number next).1.edges :=
      mem_ends_iff_drawn.mpr (.inr ⟨m, hm, p, hp, rfl⟩)
    have habove : p.1.vertex ∈ ends (e.number next).1.edges :=
      mem_ends_iff_drawn.mpr (.inl ⟨p.1, hchild, hbelow, rfl⟩)
    exact Numbered.label_vertexAt_eq_iff.mp (hlabels _ hdrawn _ habove rfl)
  · intro hplaced
    -- A number that is drawn above its children has the same label where it is drawn below another.
    have hmixed {m m' : Numbered} {p : Numbered × Location} (hm : m ∈ (e.number next).1.toList)
        (hm' : m' ∈ (e.number next).1.toList) (hchildren : m.children ≠ [])
        (hp : p ∈ m'.children.zip m'.expr.drawnAt) (hid : m.id = p.1.id) :
        (p.1.vertexAt p.2).label = m.vertex.label := by
      obtain rfl := eq_of_id_eq hm (mem_number_of_drawn hm' hp) hid
      have hq : (p.1.expr, p.2) ∈ m'.expr.children.zip m'.expr.drawnAt := by
        rw [← map_expr_children_of_mem hm', List.zip_map_left]
        exact List.mem_map_of_mem hp
      refine Numbered.label_vertexAt_eq_iff.mpr
        (hplaced _ ((reaches_iff_numbered next).mpr ⟨m', hm', rfl⟩) _ hq ?_)
      rw [← map_expr_children_of_mem hm]
      simpa using hchildren
    intro v hv w hw hid
    rcases mem_ends_iff_drawn.mp hv with ⟨m, hm, hchildren, rfl⟩ | ⟨m, hm, p, hp, rfl⟩ <;>
      rcases mem_ends_iff_drawn.mp hw with ⟨m', hm', hchildren', rfl⟩ | ⟨m', hm', p', hp', rfl⟩
    · rw [eq_of_id_eq hm hm' hid]
    · exact (hmixed hm hm' hchildren hp' hid).symm
    · exact hmixed hm' hm hchildren' hp hid.symm
    · rw [drawnAt_unique hm hm' hp hp' hid]

/-! ## Ways through the graph -/

/-- Every number but the first is the end of an edge. -/
theorem exists_edge_of_pos {id : Nat} (hpos : 0 < id) (hid : id < e.preorder.length) :
    ∃ edge ∈ (e.number 0).1.edges, edge.target.id = id := by
  have hmem : id ∈ (e.number 0).1.edges.map (·.target.id) := by
    rw [(e.map_target_edges 0).mem_iff, List.mem_range'_1]
    omega
  exact List.mem_map.mp hmem

/-- The ends of edges have numbers of expressions. -/
theorem id_lt_of_mem_ends {v : Vertex} (hv : v ∈ ends (e.number 0).1.edges) :
    v.id < e.preorder.length := by
  obtain ⟨edge, hedge, hend⟩ := mem_ends_iff.mp hv
  obtain ⟨m, hm, location, rfl⟩ :=
    Numbered.exists_vertexAt_of_mem_edges hedge (List.mem_pair.mpr hend)
  exact (List.getElem?_eq_some_iff.mp (getElem?_preorder_of_mem hm)).1

/-- Every number is reached from the first one along edges. -/
theorem reaches_id (e : Expr) {id : Nat} (hid : id < e.preorder.length) :
    Relation.ReflTransGen
      (fun i j => ∃ edge ∈ (e.number 0).1.edges, edge.source.id = i ∧ edge.target.id = j) 0 id := by
  induction id using Nat.strong_induction_on with
  | h id ih =>
    rcases Nat.eq_zero_or_pos id with rfl | hpos
    · exact .refl
    · obtain ⟨edge, hedge, rfl⟩ := exists_edge_of_pos hpos hid
      have hsource := source_lt_target hedge
      exact (ih edge.source.id hsource (by omega)).tail ⟨edge, hedge, rfl, rfl⟩

/-- The first number is drawn as the root. -/
theorem label_of_id_eq_zero {v : Vertex} (hv : v ∈ ends (e.number 0).1.edges) (hid : v.id = 0) :
    v.label = e.label (some 0) e.location := by
  rcases mem_ends_iff_drawn.mp hv with ⟨m, hm, -, rfl⟩ | ⟨m, hm, p, hp, rfl⟩
  · have hroot : (e.number 0).1 ∈ (e.number 0).1.toList := by
      rw [Numbered.toList_eq]
      exact List.mem_cons_self
    obtain rfl := eq_of_id_eq hm hroot (hid.trans (e.id_number 0).symm)
    rw [Numbered.vertex, Numbered.vertexAt, expr_number, id_number]
  · have hpairwise := m.expr.pairwise_children_number m.id
    rw [← eq_number_of_mem hm, List.pairwise_cons] at hpairwise
    have hlt : m.id < p.1.id :=
      hpairwise.1 _ (List.mem_map_of_mem (List.of_mem_zip (a := p.1) (b := p.2) hp).1)
    exact absurd hid (Nat.ne_of_gt (Nat.zero_lt_of_lt hlt))

/-- If the labels agree, then every label is reached from that of the root along edges. -/
theorem reaches_label (h : LabelsAgree (e.number 0).1.edges) {v : Vertex}
    (hv : v ∈ ends (e.number 0).1.edges) :
    Relation.ReflTransGen (Linked (e.number 0).1.edges) (e.label (some 0) e.location) v.label := by
  have hpath := e.reaches_id (id_lt_of_mem_ends hv)
  generalize hid : v.id = id at hpath
  induction hpath generalizing v with
  | refl =>
    rw [label_of_id_eq_zero hv hid]
  | @tail i j _ hedge ih =>
    obtain ⟨edge, hedge, rfl, rfl⟩ := hedge
    have hsource := ih (mem_ends_iff.mpr ⟨edge, hedge, .inl rfl⟩) rfl
    rw [h v hv edge.target (mem_ends_iff.mpr ⟨edge, hedge, .inr rfl⟩) hid]
    exact hsource.tail ⟨edge, hedge, rfl, rfl⟩

/-- In the graph of a tree each number has one label if and only if the names of fields that have
children stand where their fields do; if so, then every label is reached from that of the root along
edges. The numbers themselves are always reached from that of the root. -/
theorem labels_of_graph {limit : Nat} {edges : List Edge} (h : e.graph limit = .ok edges) :
    (LabelsAgree edges ↔ e.NamesPlaced) ∧
      (e.NamesPlaced → ∀ v ∈ ends edges,
        Relation.ReflTransGen (Linked edges) (e.label (some 0) e.location) v.label) ∧
      ∀ id, 0 < id → id < e.preorder.length → (∃ v ∈ ends edges, v.id = id) ∧
        Relation.ReflTransGen
          (fun i j => ∃ edge ∈ edges, edge.source.id = i ∧ edge.target.id = j) 0 id := by
  obtain ⟨n, hn, h⟩ := Outcome.bind_eq_ok h
  obtain ⟨-, -, hn⟩ := Outcome.bind_eq_ok hn
  obtain rfl := Except.ok.inj hn
  obtain rfl := Except.ok.inj h
  refine ⟨e.labelsAgree_iff 0, fun hplaced v hv => ?_, fun id hpos hid => ⟨?_, e.reaches_id hid⟩⟩
  · exact reaches_label ((e.labelsAgree_iff 0).mpr hplaced) hv
  · obtain ⟨edge, hedge, rfl⟩ := exists_edge_of_pos hpos hid
    exact ⟨edge.target, mem_ends_iff.mpr ⟨edge, hedge, .inr rfl⟩, rfl⟩

/-- A field whose name is computed from two variables, and stands where the field does. The second
variable is reached from the object. -/
theorem labels_of_graph_computedName :
    let place : Location := ⟨"a.jsonnet", ⟨1, 3⟩, ⟨1, 9⟩⟩
    let name : Expr := { Build.binary (Build.var "x") .plus (Build.var "y") with location := place }
    let e := Build.loweredObject [Build.self] [⟨.inherit, name, Build.null, false, place⟩] []
    ∃ edges, e.graph 2 = .ok edges ∧ LabelsAgree edges ∧ e.NamesPlaced ∧
      Relation.ReflTransGen (Linked edges) "[] #0 DesugaredObject" "[] #3 Var y" := by
  intro place name e
  obtain ⟨edges, hgraph, hedges⟩ : ∃ edges : List Edge, e.graph 2 = .ok edges ∧ edges = [
      ⟨⟨1, "[a.jsonnet:1:3-9] #1 Binary +"⟩, ⟨2, "[] #2 Var x"⟩⟩,
      ⟨⟨1, "[a.jsonnet:1:3-9] #1 Binary +"⟩, ⟨3, "[] #3 Var y"⟩⟩,
      ⟨⟨0, "[] #0 DesugaredObject"⟩, ⟨1, "[a.jsonnet:1:3-9] #1 Binary +"⟩⟩,
      ⟨⟨1, "[a.jsonnet:1:3-9] #1 Binary +"⟩, ⟨4, "[] #4 LiteralNull"⟩⟩,
      ⟨⟨0, "[] #0 DesugaredObject"⟩, ⟨5, "[] #5 Self"⟩⟩] := ⟨_, by decide +kernel, rfl⟩
  have hagree : LabelsAgree edges := by
    rw [hedges]
    decide
  obtain ⟨hiff, hreach, -⟩ := labels_of_graph hgraph
  have hplaced := hiff.mp hagree
  have hend : ⟨3, "[] #3 Var y"⟩ ∈ ends edges := by
    rw [hedges]
    decide
  have hroot : e.label (some 0) e.location = "[] #0 DesugaredObject" := by decide +kernel
  exact ⟨edges, hgraph, hagree, hplaced, hroot ▸ hreach hplaced _ hend⟩

/-- A field whose name is computed from two variables, with the locations of `{ [x + y]: null }`.
The name has two labels, and the variables are not reached from the object. -/
theorem labels_differ_computedName :
    let place (start stop : UInt32) : Location := ⟨"a.jsonnet", ⟨1, start⟩, ⟨1, stop⟩⟩
    let name : Expr := ⟨place 4 9, [],
      .binary ⟨⟨place 4 5, [], .var "x"⟩, [], .plus, ⟨place 8 9, [], .var "y"⟩⟩⟩
    let body : Expr := ⟨place 12 16, [], .null⟩
    let member := { Build.fieldExpr name .inherit body with location := place 3 16 }
    let t : Tree := ⟨.raw, ⟨place 1 17, [], .object ⟨[member], false, []⟩⟩, []⟩
    let lowered : Tree := ⟨.lowered, ⟨place 1 17, [],
      .loweredObject ⟨[], [⟨.inherit, name, body, false, place 3 16⟩], []⟩⟩, []⟩
    t.lower 512 = .ok lowered ∧ ∃ edges, lowered.root.graph 512 = .ok edges ∧
      ¬LabelsAgree edges ∧ ∃ v ∈ ends edges, ¬Relation.ReflTransGen (Linked edges)
        (lowered.root.label (some 0) lowered.root.location) v.label := by
  intro place name body member t lowered
  have hlower : t.lower 512 = .ok lowered := by
    unfold t lowered member body name place
    rfl
  obtain ⟨edges, hgraph, hedges⟩ : ∃ edges : List Edge,
      lowered.root.graph 512 = .ok edges ∧ edges = [
      ⟨⟨1, "[a.jsonnet:1:4-9] #1 Binary +"⟩, ⟨2, "[a.jsonnet:1:4-5] #2 Var x"⟩⟩,
      ⟨⟨1, "[a.jsonnet:1:4-9] #1 Binary +"⟩, ⟨3, "[a.jsonnet:1:8-9] #3 Var y"⟩⟩,
      ⟨⟨0, "[a.jsonnet:1:1-17] #0 DesugaredObject"⟩, ⟨1, "[a.jsonnet:1:3-16] #1 Binary +"⟩⟩,
      ⟨⟨1, "[a.jsonnet:1:3-16] #1 Binary +"⟩, ⟨4, "[a.jsonnet:1:12-16] #4 LiteralNull"⟩⟩] :=
    ⟨_, by decide +kernel, rfl⟩
  have hlabels : ¬LabelsAgree edges := by
    rw [hedges]
    decide
  have hroot : lowered.root.label (some 0) lowered.root.location =
      "[a.jsonnet:1:1-17] #0 DesugaredObject" := by decide +kernel
  -- The object, the name with the location of the field, and the body lead to no other label.
  let seen := ["[a.jsonnet:1:1-17] #0 DesugaredObject", "[a.jsonnet:1:3-16] #1 Binary +",
    "[a.jsonnet:1:12-16] #4 LiteralNull"]
  have hclosed : ∀ edge ∈ edges, edge.source.label ∈ seen → edge.target.label ∈ seen := by
    rw [hedges]
    decide
  have hreached {label : String} (h : Relation.ReflTransGen (Linked edges)
      (lowered.root.label (some 0) lowered.root.location) label) : label ∈ seen := by
    induction h with
    | refl =>
      rw [hroot]
      exact List.mem_cons_self
    | tail _ hlink ih =>
      obtain ⟨edge, hedge, rfl, rfl⟩ := hlink
      exact hclosed edge hedge ih
  refine ⟨hlower, edges, hgraph, hlabels, ⟨2, "[a.jsonnet:1:4-5] #2 Var x"⟩, ?_, fun h => ?_⟩
  · rw [hedges]
    decide
  · exact absurd (hreached h) (by decide)

end Expr

end JsonnetTree
