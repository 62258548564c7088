import CodeAtlas.Graph
import CodeAtlas.Proofs.Query.Summary
import CodeAtlas.Proofs.Store.Reading
import Mathlib.Algebra.BigOperators.Group.List.Basic
import Mathlib.Algebra.Ring.Nat
import Mathlib.Data.List.Induction
import Mathlib.Logic.Relation

/-!
# The edges of a dependency graph

What a graph that was built from relationships lists under an id, in both directions, and how this
relates to the edges of a store.

* `Tables.Depends`                     an entity depends on another one by a stored edge;
* `DependencyGraph.Consistent`         both directions have room for the ids that are listed;
* `dependencies_ofRelationships`, `dependents_ofRelationships`   the links of an id;
* `mem_dependencies_of_load`, `mem_dependents_of_load`   the same for a loaded graph.
-/

namespace CodeAtlas

/-! ### Links under ids -/

theorem lookup_cons_eq_ite {β : Type} (other key : String) (value : β)
    (entries : List (String × β)) :
    List.lookup other ((key, value) :: entries) =
      if other = key then some value else entries.lookup other := by
  rw [List.lookup_cons]
  by_cases h : other = key
  · rw [if_pos h, beq_iff_eq.mpr h]
  · rw [if_neg h, beq_eq_false_iff_ne.mpr h]

namespace LinkIndex

variable (index : LinkIndex) (id other : String) (link : Link)

theorem lookup_append_single :
    List.lookup other (index ++ [(id, [])]) =
      if index.hasKey other then index.lookup other else if other = id then some [] else none := by
  induction index with
  | nil => exact lookup_cons_eq_ite other id [] []
  | cons entry index ih =>
    obtain ⟨key, links⟩ := entry
    unfold hasKey at ih ⊢
    rw [List.cons_append, lookup_cons_eq_ite, lookup_cons_eq_ite, ih]
    by_cases h : other = key
    · rw [if_pos h, if_pos h, Option.isSome_some, if_pos rfl]
    · rw [if_neg h, if_neg h]

theorem lookup_reserve :
    (index.reserve id).lookup other =
      if other = id then some (index.links id) else index.lookup other := by
  unfold reserve links
  by_cases hkey : index.hasKey id = true
  · rw [if_pos hkey]
    obtain ⟨ls, hls⟩ := Option.isSome_iff_exists.mp hkey
    by_cases h : other = id
    · rw [if_pos h, h, hls]
      rfl
    · rw [if_neg h]
  · rw [if_neg hkey, lookup_append_single]
    have hnone : index.lookup id = none := Option.not_isSome_iff_eq_none.mp hkey
    by_cases h : other = id
    · rw [if_pos h, if_neg (h ▸ hkey), if_pos h, hnone]
      rfl
    · rw [if_neg h, if_neg h]
      unfold hasKey
      cases index.lookup other <;> rfl

@[simp] theorem links_reserve : (index.reserve id).links other = index.links other := by
  unfold links
  rw [lookup_reserve]
  by_cases h : other = id
  · rw [if_pos h, h]
    rfl
  · rw [if_neg h]

@[simp] theorem hasKey_reserve :
    (index.reserve id).hasKey other = (other == id || index.hasKey other) := by
  unfold hasKey
  rw [lookup_reserve]
  by_cases h : other = id
  · simp [h]
  · simp [h]

theorem lookup_add :
    (index.add id link).lookup other =
      (index.lookup other).map fun links => if other = id then links ++ [link] else links := by
  unfold add
  induction index with
  | nil => rfl
  | cons entry index ih =>
    obtain ⟨key, links⟩ := entry
    rw [List.map_cons, lookup_cons_eq_ite, lookup_cons_eq_ite, ih]
    by_cases h : other = key
    · rw [if_pos h, if_pos h, Option.map_some, h]
    · rw [if_neg h, if_neg h]

@[simp] theorem hasKey_add : (index.add id link).hasKey other = index.hasKey other := by
  unfold hasKey
  rw [lookup_add, Option.isSome_map]

theorem links_add (h : index.hasKey id = true) :
    (index.add id link).links other =
      index.links other ++ if other = id then [link] else [] := by
  unfold links
  rw [lookup_add]
  by_cases hid : other = id
  · obtain ⟨ls, hls⟩ := Option.isSome_iff_exists.mp h
    rw [hid, hls]
    simp
  · simp [hid]

end LinkIndex

/-! ### Edges of a graph -/

namespace DependencyGraph

variable (g : DependencyGraph)

/-- every id is listed once, and both directions have room for it -/
structure Consistent : Prop where
  nodes : g.nodes.Nodup
  outgoing : ∀ id, g.outgoing.hasKey id = true ↔ id ∈ g.nodes
  incoming : ∀ id, g.incoming.hasKey id = true ↔ id ∈ g.nodes

namespace Consistent

variable {g}

theorem empty : Consistent {} := ⟨.nil, by simp [LinkIndex.hasKey], by simp [LinkIndex.hasKey]⟩

theorem nodes_reserve (h : g.Consistent) (id : String) :
    (g.reserve id).nodes = if id ∈ g.nodes then g.nodes else g.nodes ++ [id] := by
  have hkey : (g.outgoing.hasKey id || g.incoming.hasKey id) = true ↔ id ∈ g.nodes := by
    rw [Bool.or_eq_true, h.outgoing, h.incoming, or_self]
  show (if _ then _ else _) = _
  simp only [hkey]

theorem mem_nodes_reserve (h : g.Consistent) (id other : String) :
    other ∈ (g.reserve id).nodes ↔ other = id ∨ other ∈ g.nodes := by
  rw [h.nodes_reserve]
  split
  · rename_i hmem
    exact ⟨.inr, fun ho => ho.elim (fun heq => heq ▸ hmem) fun hmem => hmem⟩
  · rw [List.mem_append, List.mem_singleton, or_comm]

theorem reserve (h : g.Consistent) (id : String) : (g.reserve id).Consistent where
  nodes := by
    rw [h.nodes_reserve]
    split
    · exact h.nodes
    · rename_i hmem
      rw [← List.concat_eq_append]
      exact .concat hmem h.nodes
  outgoing other := by
    rw [h.mem_nodes_reserve, ← h.outgoing]
    show (g.outgoing.reserve id).hasKey other = true ↔ _
    simp
  incoming other := by
    rw [h.mem_nodes_reserve, ← h.incoming]
    show (g.incoming.reserve id).hasKey other = true ↔ _
    simp

theorem addEdge (h : g.Consistent) (source target : String) (kind : RelationshipKind) :
    (g.addEdge source target kind).Consistent := by
  unfold DependencyGraph.addEdge
  split
  · have hroom := (h.reserve source).reserve target
    refine ⟨hroom.nodes, fun id => ?_, fun id => ?_⟩
    · rw [← hroom.outgoing id, LinkIndex.hasKey_add]
    · rw [← hroom.incoming id, LinkIndex.hasKey_add]
  · exact h

end Consistent

/-! ### The links of an id -/

variable (source target : String) (kind : RelationshipKind) (id : String)

theorem dependencies_reserve (other : String) :
    (g.reserve other).dependencies id = g.dependencies id :=
  LinkIndex.links_reserve g.outgoing other id

theorem dependents_reserve (other : String) :
    (g.reserve other).dependents id = g.dependents id :=
  LinkIndex.links_reserve g.incoming other id

section

variable {g}

theorem dependencies_addEdge (h : g.Consistent) :
    (g.addEdge source target kind).dependencies id =
      g.dependencies id ++
        if kind.isDependency = true ∧ id = source then [⟨target, kind⟩] else [] := by
  unfold addEdge
  by_cases hkind : kind.isDependency = true
  · have hroom := (h.reserve source).reserve target
    have hkey : ((g.reserve source).reserve target).outgoing.hasKey source = true := by
      rw [hroom.outgoing, (h.reserve source).mem_nodes_reserve, h.mem_nodes_reserve]
      exact .inr (.inl rfl)
    rw [if_pos hkind]
    show LinkIndex.links (LinkIndex.add _ _ _) id = _
    rw [LinkIndex.links_add _ _ _ _ hkey]
    show ((g.reserve source).reserve target).dependencies id ++ _ = _
    rw [dependencies_reserve, dependencies_reserve]
    simp only [hkind, true_and]
  · simp [hkind]

theorem dependents_addEdge (h : g.Consistent) :
    (g.addEdge source target kind).dependents id =
      g.dependents id ++
        if kind.isDependency = true ∧ id = target then [⟨source, kind⟩] else [] := by
  unfold addEdge
  by_cases hkind : kind.isDependency = true
  · have hroom := (h.reserve source).reserve target
    have hkey : ((g.reserve source).reserve target).incoming.hasKey target = true := by
      rw [hroom.incoming, (h.reserve source).mem_nodes_reserve]
      exact .inl rfl
    rw [if_pos hkind]
    show LinkIndex.links (LinkIndex.add _ _ _) id = _
    rw [LinkIndex.links_add _ _ _ _ hkey]
    show ((g.reserve source).reserve target).dependents id ++ _ = _
    rw [dependents_reserve, dependents_reserve]
    simp only [hkind, true_and]
  · simp [hkind]

theorem mem_nodes_addEdge (h : g.Consistent) :
    id ∈ (g.addEdge source target kind).nodes ↔
      id ∈ g.nodes ∨ kind.isDependency = true ∧ (id = source ∨ id = target) := by
  unfold addEdge
  by_cases hkind : kind.isDependency = true
  · rw [if_pos hkind]
    show id ∈ ((g.reserve source).reserve target).nodes ↔ _
    rw [(h.reserve source).mem_nodes_reserve, h.mem_nodes_reserve]
    simp only [hkind, true_and]
    exact ⟨fun hid => by tauto, fun hid => by tauto⟩
  · simp [hkind]

end

theorem edgeCount_addEdge :
    (g.addEdge source target kind).edgeCount =
      g.edgeCount + if kind.isDependency = true then 1 else 0 := by
  unfold addEdge
  split
  · rfl
  · rfl

/-! ### Graphs of relationships -/

/-- the relationships that are edges of the graph -/
def edgesOf (rs : List Relationship) : List Relationship := rs.filter (·.kind.isDependency)

theorem edgesOf_concat (rs : List Relationship) (r : Relationship) :
    edgesOf (rs ++ [r]) = edgesOf rs ++ if r.kind.isDependency = true then [r] else [] := by
  unfold edgesOf
  rw [List.filter_append, List.filter_singleton, Bool.cond_eq_ite]

theorem ofRelationships_concat (rs : List Relationship) (r : Relationship) :
    ofRelationships (rs ++ [r]) = (ofRelationships rs).addEdge r.sourceId r.targetId r.kind := by
  unfold ofRelationships
  rw [List.foldl_append]
  rfl

theorem consistent_ofRelationships (rs : List Relationship) : (ofRelationships rs).Consistent := by
  induction rs using List.reverseRecOn with
  | nil => exact .empty
  | append_singleton rs r ih =>
    rw [ofRelationships_concat]
    exact ih.addEdge _ _ _

/-- The links from an id are the edges that start there, in their order. -/
theorem dependencies_ofRelationships (rs : List Relationship) :
    (ofRelationships rs).dependencies id =
      ((edgesOf rs).filter (·.sourceId == id)).map fun r => ⟨r.targetId, r.kind⟩ := by
  induction rs using List.reverseRecOn with
  | nil => rfl
  | append_singleton rs r ih =>
    rw [ofRelationships_concat, dependencies_addEdge _ _ _ _ (consistent_ofRelationships rs), ih,
      edgesOf_concat, List.filter_append, List.map_append]
    congr 1
    by_cases hkind : r.kind.isDependency = true
    · by_cases hid : id = r.sourceId
      · simp [hkind, hid]
      · simp [hkind, hid, Ne.symm hid]
    · simp [hkind]

/-- The links to an id are the edges that end there, in their order. -/
theorem dependents_ofRelationships (rs : List Relationship) :
    (ofRelationships rs).dependents id =
      ((edgesOf rs).filter (·.targetId == id)).map fun r => ⟨r.sourceId, r.kind⟩ := by
  induction rs using List.reverseRecOn with
  | nil => rfl
  | append_singleton rs r ih =>
    rw [ofRelationships_concat, dependents_addEdge _ _ _ _ (consistent_ofRelationships rs), ih,
      edgesOf_concat, List.filter_append, List.map_append]
    congr 1
    by_cases hkind : r.kind.isDependency = true
    · by_cases hid : id = r.targetId
      · simp [hkind, hid]
      · simp [hkind, hid, Ne.symm hid]
    · simp [hkind]

theorem mem_nodes_ofRelationships (rs : List Relationship) :
    id ∈ (ofRelationships rs).nodes ↔ ∃ r ∈ edgesOf rs, id = r.sourceId ∨ id = r.targetId := by
  induction rs using List.reverseRecOn with
  | nil => simp [ofRelationships, edgesOf]
  | append_singleton rs r ih =>
    rw [ofRelationships_concat, mem_nodes_addEdge _ _ _ _ (consistent_ofRelationships rs), ih,
      edgesOf_concat]
    by_cases hkind : r.kind.isDependency = true
    · simp only [hkind, if_true, true_and, List.mem_append, List.mem_singleton, or_and_right,
        exists_or, exists_eq_left]
    · simp [hkind]

theorem edgeCount_ofRelationships (rs : List Relationship) :
    (ofRelationships rs).edgeCount = (edgesOf rs).length := by
  induction rs using List.reverseRecOn with
  | nil => rfl
  | append_singleton rs r ih =>
    rw [ofRelationships_concat, edgeCount_addEdge, ih, edgesOf_concat, List.length_append]
    congr 1
    split
    · rfl
    · rfl

/-- Every edge is a link of exactly one id. -/
theorem sum_length_dependencies (rs : List Relationship) :
    ((ofRelationships rs).nodes.map fun id => ((ofRelationships rs).dependencies id).length).sum =
      (ofRelationships rs).edgeCount := by
  have hsources : ∀ r ∈ edgesOf rs, r.sourceId ∈ (ofRelationships rs).nodes := fun r hr =>
    (mem_nodes_ofRelationships _ rs).mpr ⟨r, hr, .inl rfl⟩
  rw [edgeCount_ofRelationships,
    ← sum_length_filter_eq_length (consistent_ofRelationships rs).nodes (·.sourceId) (edgesOf rs)
      hsources]
  congr 1
  refine List.map_congr_left fun id _ => ?_
  rw [dependencies_ofRelationships, List.length_map]

/-- the graph was built from relationships -/
def IsBuilt : Prop := ∃ rs, g = ofRelationships rs

namespace IsBuilt

variable {g}

theorem nodup_nodes (h : g.IsBuilt) : g.nodes.Nodup := by
  obtain ⟨rs, rfl⟩ := h
  exact (consistent_ofRelationships rs).nodes

theorem sum_length (h : g.IsBuilt) :
    (g.nodes.map fun id => (g.dependencies id).length).sum = g.edgeCount := by
  obtain ⟨rs, rfl⟩ := h
  exact sum_length_dependencies rs

theorem ends_mem_nodes (h : g.IsBuilt) {id : String} {link : Link}
    (hlink : link ∈ g.dependencies id) : id ∈ g.nodes ∧ link.entityId ∈ g.nodes := by
  obtain ⟨rs, rfl⟩ := h
  rw [dependencies_ofRelationships, List.mem_map] at hlink
  obtain ⟨r, hr, rfl⟩ := hlink
  obtain ⟨hr, hid⟩ := List.mem_filter.mp hr
  rw [mem_nodes_ofRelationships, mem_nodes_ofRelationships]
  exact ⟨⟨r, hr, .inl (beq_iff_eq.mp hid).symm⟩, r, hr, .inr rfl⟩

end IsBuilt

end DependencyGraph

/-! ### The edges of a store -/

/-- an entity depends on another one by a stored edge -/
def Tables.Depends (t : Tables) (source target : String) : Prop :=
  ∃ kind : RelationshipKind, kind.isDependency = true ∧ t.HasEdge source target kind.name

namespace DependencyGraph

variable {t : Tables} {g : DependencyGraph} {source target : String} {kind : RelationshipKind}

theorem load_eq_ok (h : load t = .ok g) :
    ∃ rs, g = ofRelationships rs ∧ ∀ source target kind,
      (∃ r ∈ edgesOf rs, r.sourceId = source ∧ r.targetId = target ∧ r.kind = kind) ↔
        kind.isDependency = true ∧ t.HasEdge source target kind.name := by
  obtain ⟨rs, hrs, h⟩ := Tables.bind_eq_ok.mp h
  refine ⟨rs, (Except.ok.inj h).symm, fun source target kind => ?_⟩
  have hkinds : (∃ r ∈ rs, r.sourceId = source ∧ r.targetId = target ∧ r.kind = kind) ↔
      kind ∈ RelationshipKind.dependencies ∧ t.HasEdge source target kind.name :=
    Relationships.byKinds_eq_ok hrs
  rw [RelationshipKind.mem_dependencies] at hkinds
  rw [← hkinds]
  constructor
  · rintro ⟨r, hr, hends⟩
    exact ⟨r, (List.mem_filter.mp hr).1, hends⟩
  · rintro ⟨r, hr, hends⟩
    have hkind := (hkinds.mp ⟨r, hr, hends⟩).1
    exact ⟨r, List.mem_filter.mpr ⟨hr, by rw [hends.2.2, hkind]⟩, hends⟩

theorem isBuilt_of_load (h : load t = .ok g) : g.IsBuilt := by
  obtain ⟨rs, rfl, _⟩ := load_eq_ok h
  exact ⟨rs, rfl⟩

theorem exists_load (h : t.HoldsGraph) : ∃ g, load t = .ok g := by
  obtain ⟨rs, hrs⟩ := Relationships.exists_byKinds h RelationshipKind.dependencies
  exact ⟨ofRelationships rs, by rw [load, hrs]; rfl⟩

theorem mem_dependencies_of_load (h : load t = .ok g) :
    ⟨target, kind⟩ ∈ g.dependencies source ↔
      kind.isDependency = true ∧ t.HasEdge source target kind.name := by
  obtain ⟨rs, rfl, hrs⟩ := load_eq_ok h
  rw [← hrs, dependencies_ofRelationships, List.mem_map]
  simp only [List.mem_filter, beq_iff_eq, Link.mk.injEq, and_assoc]

theorem mem_dependents_of_load (h : load t = .ok g) :
    ⟨source, kind⟩ ∈ g.dependents target ↔
      kind.isDependency = true ∧ t.HasEdge source target kind.name := by
  obtain ⟨rs, rfl, hrs⟩ := load_eq_ok h
  rw [← hrs, dependents_ofRelationships, List.mem_map]
  simp only [List.mem_filter, beq_iff_eq, Link.mk.injEq, and_assoc, and_left_comm]

theorem mem_nodes_of_load (h : load t = .ok g) {id : String} :
    id ∈ g.nodes ↔ ∃ other, t.Depends id other ∨ t.Depends other id := by
  obtain ⟨rs, rfl, hrs⟩ := load_eq_ok h
  rw [mem_nodes_ofRelationships]
  constructor
  · rintro ⟨r, hr, rfl | rfl⟩
    · exact ⟨r.targetId, .inl ⟨r.kind, (hrs _ _ _).mp ⟨r, hr, rfl, rfl, rfl⟩⟩⟩
    · exact ⟨r.sourceId, .inr ⟨r.kind, (hrs _ _ _).mp ⟨r, hr, rfl, rfl, rfl⟩⟩⟩
  · rintro ⟨other, ⟨kind, hedge⟩ | ⟨kind, hedge⟩⟩
    · obtain ⟨r, hr, rfl, _, _⟩ := (hrs _ _ _).mpr hedge
      exact ⟨r, hr, .inl rfl⟩
    · obtain ⟨r, hr, _, rfl, _⟩ := (hrs _ _ _).mpr hedge
      exact ⟨r, hr, .inr rfl⟩

end DependencyGraph

end CodeAtlas
