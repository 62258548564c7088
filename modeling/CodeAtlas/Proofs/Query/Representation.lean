import CodeAtlas.Proofs.Query.Adjacency

/-!
# What a dependency graph holds

A graph is built by adding edges one by one. It keeps those that are not structural, each under both
of its ends and in the order in which they were given, and lists their ends in the order in which
they were first seen. The two directions, the list of ids and the number of edges never disagree.

* `DependencyGraph.ofEdges`      the graph of a sequence of edges;
* `DependencyGraph.Holds`        a graph holds a sequence of edges;
* `nodes_addEdge`                what one more edge does to the ids;
* `holds_given`                  whatever is given, a graph holds what is not structural of it.
-/

namespace CodeAtlas

theorem RelationshipKind.isDependency_eq (kind : RelationshipKind) :
    kind.isDependency = (kind != .contains) := by
  cases kind <;> rfl

/-- The ids seen so far, after one more was seen. -/
theorem eraseDups_concat (ids : List String) (id : String) :
    (ids ++ [id]).eraseDups =
      if id ∈ ids.eraseDups then ids.eraseDups else ids.eraseDups ++ [id] := by
  rw [List.eraseDups_append]
  by_cases h : id ∈ ids
  · rw [if_pos (List.mem_eraseDups.mpr h), List.removeAll,
      List.filter_cons_of_neg (by simpa using h)]
    exact List.append_nil _
  · rw [if_neg (mt List.mem_eraseDups.mp h), List.removeAll,
      List.filter_cons_of_pos (by simpa using h)]
    rfl

namespace DependencyGraph

/-- an edge as it is given to a graph -/
structure Arc where
  source : String
  target : String
  kind : RelationshipKind

namespace Arc

def ends (e : Arc) : List String := [e.source, e.target]

/-- a relationship that gives this edge to a graph -/
def relationship (e : Arc) : Relationship where
  sourceId := e.source
  targetId := e.target
  kind := e.kind
  id := ""

end Arc

/-- the edge that a relationship gives to a graph -/
def edgeOf (r : Relationship) : Arc := ⟨r.sourceId, r.targetId, r.kind⟩

/-- the graph to which edges were added one by one -/
def ofEdges (edges : List Arc) : DependencyGraph :=
  edges.foldl (fun g e => g.addEdge e.source e.target e.kind) {}

/-- the edges that a graph keeps -/
def kept (edges : List Arc) : List Arc := edges.filter (·.kind != .contains)

/-- a graph holds these edges and no others -/
structure Holds (g : DependencyGraph) (edges : List Arc) : Prop where
  dependencies : ∀ id, g.dependencies id =
    (edges.filter (·.source == id)).map fun e => ⟨e.target, e.kind⟩
  dependents : ∀ id, g.dependents id =
    (edges.filter (·.target == id)).map fun e => ⟨e.source, e.kind⟩
  /-- Each direction is the converse of the other one, repeated edges included. -/
  converse : ∀ source target kind,
    (g.dependencies source).count ⟨target, kind⟩ = (g.dependents target).count ⟨source, kind⟩
  /-- Every end of an edge is listed once, in the order in which they were first seen, -/
  nodes : g.nodes = (edges.flatMap Arc.ends).eraseDups
  once : g.nodes.Nodup
  /-- and both directions have room for the ids that are listed, and for no others. -/
  outgoing : ∀ id, g.outgoing.hasKey id = true ↔ id ∈ g.nodes
  incoming : ∀ id, g.incoming.hasKey id = true ↔ id ∈ g.nodes
  edgeCount : g.edgeCount = edges.length
  /-- Either side holds as many links as there are edges. -/
  outgoingLinks : (g.nodes.map fun id => (g.dependencies id).length).sum = g.edgeCount
  incomingLinks : (g.nodes.map fun id => (g.dependents id).length).sum = g.edgeCount

/-! ### Edges as relationships -/

theorem ofRelationships_eq (rs : List Relationship) :
    ofRelationships rs = ofEdges (rs.map edgeOf) := by
  unfold ofRelationships ofEdges
  rw [List.foldl_map]
  rfl

theorem ofEdges_eq (edges : List Arc) :
    ofEdges edges = ofRelationships (edges.map Arc.relationship) := by
  rw [ofRelationships_eq, List.map_map]
  exact congrArg ofEdges (List.map_id edges).symm

theorem edgesOf_relationships (edges : List Arc) :
    edgesOf (edges.map Arc.relationship) = (kept edges).map Arc.relationship := by
  unfold edgesOf kept
  rw [List.filter_map]
  congr 1
  exact List.filter_congr fun e _ => e.kind.isDependency_eq

theorem ofEdges_concat (edges : List Arc) (e : Arc) :
    ofEdges (edges ++ [e]) = (ofEdges edges).addEdge e.source e.target e.kind := by
  unfold ofEdges
  rw [List.foldl_append]
  rfl

theorem kept_concat (edges : List Arc) (e : Arc) :
    kept (edges ++ [e]) = kept edges ++ if e.kind.isDependency = true then [e] else [] := by
  unfold kept
  rw [List.filter_append, List.filter_singleton, Bool.cond_eq_ite, ← e.kind.isDependency_eq]

theorem consistent_ofEdges (edges : List Arc) : (ofEdges edges).Consistent :=
  ofEdges_eq edges ▸ consistent_ofRelationships _

/-! ### The ids in the order in which they were seen -/

/-- An edge shows its source before its target. -/
theorem nodes_addEdge {g : DependencyGraph} (h : g.Consistent) {seen : List String}
    (hnodes : g.nodes = seen.eraseDups) (e : Arc) :
    (g.addEdge e.source e.target e.kind).nodes =
      (seen ++ if e.kind.isDependency = true then e.ends else []).eraseDups := by
  unfold addEdge
  by_cases hkind : e.kind.isDependency = true
  · have hsource : (g.reserve e.source).nodes = (seen ++ [e.source]).eraseDups := by
      rw [h.nodes_reserve, hnodes, eraseDups_concat]
    rw [if_pos hkind, if_pos hkind]
    show ((g.reserve e.source).reserve e.target).nodes = _
    rw [(h.reserve e.source).nodes_reserve, hsource, ← eraseDups_concat, List.append_assoc]
    rfl
  · rw [if_neg hkind, if_neg hkind, List.append_nil, hnodes]

theorem nodes_ofEdges (edges : List Arc) :
    (ofEdges edges).nodes = ((kept edges).flatMap Arc.ends).eraseDups := by
  induction edges using List.reverseRecOn with
  | nil => rfl
  | append_singleton edges e ih =>
    rw [ofEdges_concat, nodes_addEdge (consistent_ofEdges edges) ih, kept_concat,
      List.flatMap_append]
    congr 2
    split
    · rw [List.flatMap_singleton]
    · rfl

/-! ### The links -/

theorem dependencies_ofEdges (edges : List Arc) (id : String) :
    (ofEdges edges).dependencies id =
      ((kept edges).filter (·.source == id)).map fun e => ⟨e.target, e.kind⟩ := by
  rw [ofEdges_eq, dependencies_ofRelationships, edgesOf_relationships, List.filter_map,
    List.map_map]
  rfl

theorem dependents_ofEdges (edges : List Arc) (id : String) :
    (ofEdges edges).dependents id =
      ((kept edges).filter (·.target == id)).map fun e => ⟨e.source, e.kind⟩ := by
  rw [ofEdges_eq, dependents_ofRelationships, edgesOf_relationships, List.filter_map,
    List.map_map]
  rfl

/-- Both counts are the number of edges between the two ids. -/
theorem count_dependencies_ofEdges (edges : List Arc) (source target : String)
    (kind : RelationshipKind) :
    ((ofEdges edges).dependencies source).count ⟨target, kind⟩ =
      ((ofEdges edges).dependents target).count ⟨source, kind⟩ := by
  rw [dependencies_ofEdges, dependents_ofEdges, List.count, List.count, List.countP_map,
    List.countP_map, List.countP_filter, List.countP_filter]
  refine List.countP_congr fun e _ => ?_
  simp only [Function.comp_apply, Bool.and_eq_true, beq_iff_eq, Link.mk.injEq]
  tauto

theorem edgeCount_ofEdges (edges : List Arc) : (ofEdges edges).edgeCount = (kept edges).length := by
  rw [ofEdges_eq, edgeCount_ofRelationships, edgesOf_relationships, List.length_map]

/-- The lists of all ids together are as long as the number of edges, if every edge stands in the
list of one id. -/
theorem sum_links {edges : List Arc} {g : DependencyGraph} (hnodes : g.nodes.Nodup)
    (side : Arc → String) (hside : ∀ e ∈ edges, side e ∈ g.nodes) {links : String → List Link}
    {link : Arc → Link} (hlinks : ∀ id, links id = (edges.filter (side · == id)).map link) :
    (g.nodes.map fun id => (links id).length).sum = edges.length := by
  rw [← sum_length_filter_eq_length hnodes side edges hside]
  congr 1
  refine List.map_congr_left fun id _ => ?_
  rw [hlinks, List.length_map]

theorem ofEdges_holds (edges : List Arc) : (ofEdges edges).Holds (kept edges) := by
  have hconsistent := consistent_ofEdges edges
  have hends : ∀ e ∈ kept edges, e.source ∈ (ofEdges edges).nodes ∧
      e.target ∈ (ofEdges edges).nodes := by
    intro e he
    rw [nodes_ofEdges, List.mem_eraseDups, List.mem_eraseDups]
    exact ⟨List.mem_flatMap.mpr ⟨e, he, List.mem_cons_self⟩,
      List.mem_flatMap.mpr ⟨e, he, List.mem_cons_of_mem _ List.mem_cons_self⟩⟩
  exact {
    dependencies := dependencies_ofEdges edges
    dependents := dependents_ofEdges edges
    converse := count_dependencies_ofEdges edges
    nodes := nodes_ofEdges edges
    once := hconsistent.nodes
    outgoing := hconsistent.outgoing
    incoming := hconsistent.incoming
    edgeCount := edgeCount_ofEdges edges
    outgoingLinks := by
      rw [sum_links hconsistent.nodes Arc.source (fun e he => (hends e he).1)
        (dependencies_ofEdges edges), edgeCount_ofEdges]
    incomingLinks := by
      rw [sum_links hconsistent.nodes Arc.target (fun e he => (hends e he).2)
        (dependents_ofEdges edges), edgeCount_ofEdges] }

/-- **A graph holds what it is given.** Whatever edges are added one by one, or given as
relationships, the graph holds those that are not structural: under both ends in the order in which
they came, each as often as it was given, with every end listed once in the order of first sight,
and with their number as its count. -/
theorem holds_given :
    (∀ edges : List Arc, (ofEdges edges).Holds (kept edges)) ∧
    ∀ rs : List Relationship, (ofRelationships rs).Holds (kept (rs.map edgeOf)) :=
  ⟨ofEdges_holds, fun rs => ofRelationships_eq rs ▸ ofEdges_holds _⟩

/-- A repeated edge, an edge from an id to itself, and a structural one between them. -/
example :
    let g := ofEdges [⟨"b", "a", .calls⟩, ⟨"c", "a", .contains⟩, ⟨"a", "a", .imports⟩,
      ⟨"b", "a", .calls⟩]
    g.nodes = ["b", "a"] ∧ g.edgeCount = 3 ∧
      g.dependents "a" = [⟨"b", .calls⟩, ⟨"a", .imports⟩, ⟨"b", .calls⟩] := by decide

end DependencyGraph

end CodeAtlas
