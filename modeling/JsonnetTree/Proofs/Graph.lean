import JsonnetTree.Command
import JsonnetTree.Proofs.Numbering

/-!
# Graphs of trees

An edge runs from an expression to one of its children, or from the name of a field to its body
(`Numbered.eq_of_mem_edgesHere`), so it always leads to a larger number. Together the edges of an
expression lead to each of its children once (`Numbered.map_target_edgesHere`). In the whole graph
every number but the first is therefore the end of exactly one edge (`Expr.map_target_edges`).
-/

namespace JsonnetTree

namespace Numbered

variable {n : Numbered} {edge : Edge}

/-- The edges of several expressions come one after the other. -/
theorem edgesAll_eq (ns : List Numbered) : edgesAll ns = ns.flatMap edges := by
  induction ns with
  | nil => rfl
  | cons n ns ih => rw [edgesAll, ih, List.flatMap_cons]

/-- The edges below the children come before those to the children. -/
theorem edges_eq (n : Numbered) : n.edges = n.children.flatMap edges ++ n.edgesHere := by
  cases n
  rw [edges, edgesAll_eq]
  rfl

/-- The graph holds the edges of each expression once. -/
theorem edges_perm (n : Numbered) : n.edges.Perm (n.toList.flatMap edgesHere) := by
  induction n using induct with
  | h n ih =>
    rw [edges_eq, toList_eq, List.flatMap_cons, List.flatMap_assoc]
    exact List.perm_append_comm.trans ((List.Perm.flatMap_left _ ih).append_left _)

/-! ## The edges of one expression -/

/-- An edge leads from an expression to a child, or from one child to a later one. -/
theorem eq_of_mem_edgesHere (h : edge ∈ n.edgesHere) :
    (∃ child ∈ n.children, ∃ location, edge = ⟨n.vertex, child.vertexAt location⟩) ∨
      ∃ name body location, [name, body].Sublist n.children ∧
        edge = ⟨name.vertexAt location, body.vertex⟩ := by
  unfold edgesHere at h
  split at h
  next o _ =>
    rcases List.mem_append.mp h with hfield | hother
    · obtain ⟨⟨d, name, body⟩, hzip, hedge⟩ := List.mem_flatMap.mp hfield
      obtain ⟨hname, hbody⟩ := List.of_mem_zip (List.of_mem_zip hzip).2
      rcases List.mem_pair.mp hedge with rfl | rfl
      · exact .inl ⟨name, List.mem_of_mem_take hname, d.location, rfl⟩
      · have hsublist := (List.singleton_sublist.mpr hname).append
          (List.singleton_sublist.mpr (List.mem_of_mem_take hbody))
        rw [List.take_append_drop] at hsublist
        exact .inr ⟨name, body, d.location, hsublist, rfl⟩
    · obtain ⟨child, hchild, rfl⟩ := List.mem_map.mp hother
      exact .inl ⟨child, List.mem_of_mem_drop hchild, _, rfl⟩
  next =>
    obtain ⟨child, hchild, rfl⟩ := List.mem_map.mp h
    exact .inl ⟨child, hchild, _, rfl⟩

/-- The edges of fields lead to the names and to the bodies of the fields. -/
theorem map_target_fieldEdges (source : Vertex) {ds : List (LoweredField Expr)}
    {names bodies : List Numbered} (hnames : names.length = ds.length)
    (hbodies : bodies.length = ds.length) :
    (((ds.zip (names.zip bodies)).flatMap fun (d, name, body) =>
      fieldEdges source d name body).map (·.target.id)).Perm ((names ++ bodies).map id) := by
  induction ds generalizing names bodies with
  | nil =>
    obtain rfl := List.length_eq_zero_iff.mp hnames
    obtain rfl := List.length_eq_zero_iff.mp hbodies
    exact .nil
  | cons d ds ih =>
    obtain ⟨name, names, rfl⟩ := List.exists_cons_of_length_eq_add_one hnames
    obtain ⟨body, bodies, rfl⟩ := List.exists_cons_of_length_eq_add_one hbodies
    have hrest := ih (Nat.succ.inj hnames) (Nat.succ.inj hbodies)
    rw [List.cons_append, List.map_cons]
    refine List.Perm.cons name.id ?_
    rw [List.map_append, List.map_cons]
    rw [List.map_append] at hrest
    exact (hrest.cons body.id).trans List.perm_middle.symm

/-- If a numbered expression has all its children, then its edges lead to each of them once. -/
theorem map_target_edgesHere (h : n.children.length = n.expr.children.length) :
    (n.edgesHere.map (·.target.id)).Perm (n.children.map id) := by
  unfold edgesHere
  split
  next o hform =>
    -- The names and the bodies of the fields come first among the children.
    have hlength : 2 * o.fields.length ≤ n.children.length := by
      simp only [h, Expr.children, Form.children, Form.operands, Form.deferred, hform,
        List.length_append, List.length_map]
      omega
    have hnames : (n.children.take o.fields.length).length = o.fields.length := by
      rw [List.length_take]
      omega
    have hbodies : ((n.children.drop o.fields.length).take o.fields.length).length =
        o.fields.length := by
      rw [List.length_take, List.length_drop]
      omega
    have hsplit : n.children.take o.fields.length ++
        (n.children.drop o.fields.length).take o.fields.length ++
          n.children.drop (2 * o.fields.length) = n.children := by
      rw [Nat.two_mul, ← List.drop_drop, List.append_assoc, List.take_append_drop,
        List.take_append_drop]
    have hfields := (map_target_fieldEdges n.vertex hnames hbodies).append
      (.refl ((n.children.drop (2 * o.fields.length)).map id))
    rw [← List.map_append, hsplit] at hfields
    rw [List.map_append, List.map_map]
    exact hfields
  next =>
    rw [List.map_map]
    exact .refl _

/-- A child of a listed expression is listed too. -/
theorem mem_toList_of_mem_children {m c : Numbered} (hm : m ∈ n.toList) (hc : c ∈ m.children) :
    c ∈ n.toList := by
  induction n using induct with
  | h n ih =>
    rw [toList_eq] at hm ⊢
    refine List.mem_cons_of_mem _ (List.mem_flatMap.mpr ?_)
    rcases List.mem_cons.mp hm with rfl | hbelow
    · exact ⟨c, hc, by rw [toList_eq]; exact List.mem_cons_self⟩
    · obtain ⟨child, hchild, hmem⟩ := List.mem_flatMap.mp hbelow
      exact ⟨child, hchild, ih child hchild hmem⟩

/-- Every end of an edge is the vertex of a listed expression. -/
theorem exists_vertexAt_of_mem_edges (h : edge ∈ n.edges) {v : Vertex}
    (hv : v ∈ [edge.source, edge.target]) :
    ∃ m ∈ n.toList, ∃ location, v = m.vertexAt location := by
  obtain ⟨m, hm, hedge⟩ := List.mem_flatMap.mp (n.edges_perm.mem_iff.mp h)
  rcases eq_of_mem_edgesHere hedge with ⟨child, hchild, location, rfl⟩ |
    ⟨name, body, location, hsublist, rfl⟩
  · rcases List.mem_pair.mp hv with rfl | rfl
    · exact ⟨m, hm, _, rfl⟩
    · exact ⟨child, mem_toList_of_mem_children hm hchild, location, rfl⟩
  · rcases List.mem_pair.mp hv with rfl | rfl
    · exact ⟨name, mem_toList_of_mem_children hm (hsublist.subset (by simp)), location, rfl⟩
    · exact ⟨body, mem_toList_of_mem_children hm (hsublist.subset (by simp)), _, rfl⟩

end Numbered

/-! ## The edges of a tree -/

namespace Expr

/-- The edges of a numbered tree lead to each number after the first once. -/
theorem map_target_edges (e : Expr) (next : Nat) :
    ((e.number next).1.edges.map (·.target.id)).Perm
      (List.range' (next + 1) (e.preorder.length - 1)) := by
  have htargets : ((e.number next).1.edges.map (·.target.id)).Perm
      ((e.number next).1.toList.flatMap fun m => m.children.map Numbered.id) := by
    refine ((e.number next).1.edges_perm.map _).trans ?_
    rw [List.map_flatMap]
    -- Every place is numbered from its own number on, so it has all its children.
    refine List.Perm.flatMap_left _ fun m hm => Numbered.map_target_edgesHere ?_
    rw [eq_number_of_mem hm, expr_number, ← List.length_map, map_expr_children_number]
  have hids := (e.number next).1.map_id_toList_perm
  have hlength : e.preorder.length = e.preorder.length - 1 + 1 := by
    simp [preorder_eq e]
  rw [map_id_number, id_number, hlength, List.range'_succ] at hids
  exact htargets.trans ((List.perm_cons next).mp hids).symm

/-- Every edge of a numbered tree leads to a larger number. -/
theorem source_lt_target {e : Expr} {next : Nat} {edge : Edge}
    (h : edge ∈ (e.number next).1.edges) : edge.source.id < edge.target.id := by
  obtain ⟨m, hm, hedge⟩ := List.mem_flatMap.mp ((Numbered.edges_perm _).mem_iff.mp h)
  have hpairwise := m.expr.pairwise_children_number m.id
  rw [← eq_number_of_mem hm, List.pairwise_cons] at hpairwise
  obtain ⟨hchildren, hsorted⟩ := hpairwise
  rcases Numbered.eq_of_mem_edgesHere hedge with ⟨child, hchild, location, rfl⟩ |
    ⟨name, body, location, hsublist, rfl⟩
  · exact hchildren child.id (List.mem_map_of_mem hchild)
  · exact List.pairwise_pair.mp (hsorted.sublist (hsublist.map Numbered.id))

end Expr

/-- The graph of a tree within the limit is the tree. It has one edge less than there are
expressions; each number but that of the root is the end of exactly one edge; and each edge leads to
a larger number. The labels at both ends tell the expressions with these numbers. -/
theorem Command.run_graph_of_depth_le {limit : Nat} {t : Tree} (hdepth : t.root.depth ≤ limit)
    (hcount : t.root.preorder.length ≤ UInt32.size) :
    ∃ edges, t.root.graph limit = .ok edges ∧
      Command.run limit t .graph = .ok (renderGraph edges) ∧
      edges.length + 1 = t.root.preorder.length ∧
      (∀ id, edges.countP (·.target.id = id) =
        if 1 ≤ id ∧ id < t.root.preorder.length then 1 else 0) ∧
      (∀ edge ∈ edges, edge.source.id < edge.target.id) ∧
      ∀ edge ∈ edges, ∀ v ∈ [edge.source, edge.target], ∃ a location,
        t.root.preorder[v.id]? = some a ∧ v.label = a.label (some v.id) location := by
  have hgraph : t.root.graph limit = .ok (t.root.number 0).1.edges := by
    rw [Expr.graph, Expr.numbered_of_le hdepth hcount]
    rfl
  have htargets := t.root.map_target_edges 0
  have hpos : 0 < t.root.preorder.length := by simp [Expr.preorder_eq t.root]
  refine ⟨_, hgraph, by rw [run, hgraph]; rfl, ?_, ?_, fun edge => Expr.source_lt_target, ?_⟩
  · have hlength := htargets.length_eq
    rw [List.length_map, List.length_range'] at hlength
    omega
  · intro id
    have hnodup : (List.range' (0 + 1) (t.root.preorder.length - 1)).Nodup := List.nodup_range' ..
    calc (t.root.number 0).1.edges.countP (·.target.id = id)
        = ((t.root.number 0).1.edges.map (·.target.id)).count id := by
          rw [List.count, List.countP_map]
          rfl
      _ = (List.range' (0 + 1) (t.root.preorder.length - 1)).count id := htargets.count_eq id
      _ = if id ∈ List.range' (0 + 1) (t.root.preorder.length - 1) then 1 else 0 := hnodup.count
      _ = if 1 ≤ id ∧ id < t.root.preorder.length then 1 else 0 := by
          refine if_congr ?_ rfl rfl
          rw [List.mem_range'_1]
          omega
  · intro edge hedge v hv
    obtain ⟨m, hm, location, rfl⟩ := Numbered.exists_vertexAt_of_mem_edges hedge hv
    exact ⟨m.expr, location, Expr.getElem?_preorder_of_mem hm, rfl⟩

/-- A lowered object with a field, a local binding and an assertion. There are five expressions, so
that four edges are drawn; one of them leads from the name of the field to its body. -/
theorem Command.run_graph_of_depth_le_object :
    let field : LoweredField Expr := ⟨.inherit, Build.string "a", Build.self, false, .unset⟩
    let bind : Binding Expr := ⟨[], "x", [], Build.null, none, [], .unset⟩
    let t : Tree := ⟨.lowered, .ofForm (.loweredObject ⟨[Build.boolean true], [field], [bind]⟩), []⟩
    ∃ edges, t.root.graph 1 = .ok edges ∧ Command.run 1 t .graph = .ok (renderGraph edges) ∧
      edges.length = 4 ∧
      (∀ id, edges.countP (·.target.id = id) = if 1 ≤ id ∧ id < 5 then 1 else 0) ∧
      (∀ edge ∈ edges, edge.source.id < edge.target.id) ∧
      ∀ edge ∈ edges, ∀ v ∈ [edge.source, edge.target], ∃ a location,
        t.root.preorder[v.id]? = some a ∧ v.label = a.label (some v.id) location := by
  intro field bind t
  have hdepth : t.root.depth ≤ 1 := by decide +kernel
  have hlength : t.root.preorder.length = 5 := rfl
  have hcount : t.root.preorder.length ≤ UInt32.size := by
    rw [hlength]
    decide
  obtain ⟨edges, hgraph, hrun, hedges, htargets, hlt, hlabels⟩ :=
    run_graph_of_depth_le hdepth hcount
  rw [hlength] at hedges htargets
  exact ⟨edges, hgraph, hrun, by omega, htargets, hlt, hlabels⟩

end JsonnetTree
