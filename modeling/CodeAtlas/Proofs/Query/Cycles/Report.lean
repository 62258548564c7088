import CodeAtlas.Proofs.Integrity
import CodeAtlas.Proofs.Query.Cycles.Recorded
import CodeAtlas.Proofs.Query.Summary

/-!
# Cycles that are reported

Whatever is reported as a cycle is one: stored edges lead from each of its entities to the next one
and from the last one to the first, by the kinds that are reported, and the search could reach it.

* `Options.IsStart`, `Options.Reaches`   where the search starts and how far it gets;
* `Cycle.Genuine`          what it means that a cycle is one of the store;
* `CycleReport.Genuine`    what it means that a report is right about what it lists;
* `materialize_eq_ok`      the reported cycles are the recorded ones whose ids are stored;
* `find_genuine`           every report is right about what it lists.
-/

namespace CodeAtlas

namespace Cycles

/-- the search starts from every end of a dependency edge, or from the entities of a name -/
def Options.IsStart (options : Options) (t : Tables) (id : String) : Prop :=
  match options.entityName with
  | some name => ∃ r ∈ t.entityRows, r.name = name ∧ r.id = id
  | none => ∃ other, t.Depends id other ∨ t.Depends other id

/-- dependency edges lead to an id from where the search starts -/
def Options.Reaches (options : Options) (t : Tables) (id : String) : Prop :=
  ∃ start, options.IsStart t start ∧ Relation.ReflTransGen t.Depends start id

end Cycles

open Cycles

/-- distinct stored entities, each of which depends on the next one by the link of its place, and
the last one on the first; all of them within reach of the search -/
structure Cycle.Genuine (options : Options) (t : Tables) (c : Cycle) : Prop where
  two : 2 ≤ c.entities.length
  distinct : c.ids.Nodup
  length : c.links.length = c.entities.length
  edges : ∀ i a b, c.entities[i]? = some a → c.entities[(i + 1) % c.entities.length]? = some b →
    ∃ kind, c.links[i]? = some kind ∧ kind.isDependency = true ∧ t.HasEdge a.id b.id kind.name
  stored : ∀ e ∈ c.entities, ∃ r ∈ t.entityRows, r.read = .ok e
  reached : ∀ e ∈ c.entities, options.Reaches t e.id

/-- genuine cycles, none of which is another one turned, and what the summary says of them -/
structure CycleReport.Genuine (options : Options) (t : Tables) (r : CycleReport) : Prop where
  cycles : ∀ c ∈ r.cycles, c.Genuine options t
  different : r.cycles.Pairwise fun c d => ¬ c.ids ~r d.ids
  total : r.summary.totalCycles = r.cycles.length
  unique : ∃ ids : List String, ids.Nodup ∧ (∀ id, id ∈ ids ↔ ∃ c ∈ r.cycles, id ∈ c.ids) ∧
    r.summary.uniqueEntities = ids.length
  shortest : (∀ c ∈ r.cycles, r.summary.shortest ≤ c.entities.length) ∧
    (r.cycles = [] ∧ r.summary.shortest = 0 ∨
      ∃ c ∈ r.cycles, c.entities.length = r.summary.shortest)
  longest : (∀ c ∈ r.cycles, c.entities.length ≤ r.summary.longest) ∧
    (r.cycles = [] ∧ r.summary.longest = 0 ∨
      ∃ c ∈ r.cycles, c.entities.length = r.summary.longest)

namespace Cycles

variable {t : Tables} {options : Options}

/-! ### From recorded to reported cycles -/

/-- what is reported of a recorded cycle -/
def Shows (t : Tables) (f : Found) (c : Cycle) : Prop :=
  List.Forall₂ (fun id e => Entities.find? id t = .ok (some e)) f.ids c.entities ∧ c.links = f.links

theorem Shows.ids {f : Found} {c : Cycle} (h : Shows t f c) : c.ids = f.ids := by
  obtain ⟨hmembers, _⟩ := h
  unfold Cycle.ids
  generalize f.ids = ids at hmembers
  generalize c.entities = es at hmembers
  induction hmembers with
  | nil => rfl
  | cons hfind _ ih =>
    obtain ⟨r, _, hid, hread⟩ := Entities.find?_eq_some hfind
    rw [List.map_cons, ih, (EntityRow.read_eq_ok hread).1, hid]

theorem members_eq_some {ids : List String} {es : List Entity}
    (h : members t ids = .ok (some es)) :
    List.Forall₂ (fun id e => Entities.find? id t = .ok (some e)) ids es := by
  induction ids generalizing es with
  | nil =>
    cases h
    exact .nil
  | cons id ids ih =>
    obtain ⟨first, hfind, h⟩ := Tables.bind_eq_ok.mp h
    cases first with
    | none => cases h
    | some e =>
      obtain ⟨rest, hrest, h⟩ := Tables.bind_eq_ok.mp h
      cases rest with
      | none => cases h
      | some es' =>
        cases h
        exact .cons hfind (ih hrest)

theorem members_eq_none {ids : List String} (h : members t ids = .ok none) :
    ∃ id ∈ ids, ∀ r ∈ t.entityRows, r.id ≠ id := by
  induction ids with
  | nil => cases h
  | cons id ids ih =>
    obtain ⟨first, hfind, h⟩ := Tables.bind_eq_ok.mp h
    cases first with
    | none => exact ⟨id, List.mem_cons_self, Entities.find?_eq_none hfind⟩
    | some e =>
      obtain ⟨rest, hrest, h⟩ := Tables.bind_eq_ok.mp h
      cases rest with
      | none =>
        obtain ⟨other, hother, hmissing⟩ := ih hrest
        exact ⟨other, List.mem_cons_of_mem _ hother, hmissing⟩
      | some es' => cases h

/-- The reported cycles are the recorded ones, in their order, without those that have an id of
which nothing is stored. -/
theorem materialize_eq_ok {found : List Found} {cycles : List Cycle}
    (h : materialize t found = .ok cycles) :
    ∃ kept, kept.Sublist found ∧ List.Forall₂ (Shows t) kept cycles ∧
      ∀ f ∈ found, f ∈ kept ∨ ∃ id ∈ f.ids, ∀ r ∈ t.entityRows, r.id ≠ id := by
  induction found generalizing cycles with
  | nil =>
    cases h
    exact ⟨[], .slnil, .nil, nofun⟩
  | cons f found ih =>
    obtain ⟨entities, hentities, h⟩ := Tables.bind_eq_ok.mp h
    obtain ⟨rest, hrest, h⟩ := Tables.bind_eq_ok.mp h
    obtain ⟨kept, hsub, hshows, hkept⟩ := ih hrest
    cases entities with
    | none =>
      cases h
      refine ⟨kept, hsub.cons f, hshows, fun f' hf' => ?_⟩
      rcases List.mem_cons.mp hf' with rfl | hf'
      · exact .inr (members_eq_none hentities)
      · exact hkept f' hf'
    | some es =>
      cases h
      refine ⟨f :: kept, hsub.cons_cons f, .cons ⟨members_eq_some hentities, rfl⟩ hshows,
        fun f' hf' => ?_⟩
      rcases List.mem_cons.mp hf' with rfl | hf'
      · exact .inl List.mem_cons_self
      · exact (hkept f' hf').imp_left (List.mem_cons_of_mem f)

theorem exists_members (h : t.HoldsGraph) (ids : List String) : ∃ es, members t ids = .ok es := by
  induction ids with
  | nil => exact ⟨_, rfl⟩
  | cons id ids ih =>
    obtain ⟨found, hfind⟩ := Entities.exists_find? h id
    obtain ⟨rest, hrest⟩ := ih
    unfold members
    rw [hfind, hrest]
    cases found with
    | none => exact ⟨_, rfl⟩
    | some e => exact ⟨_, rfl⟩

theorem exists_materialize (h : t.HoldsGraph) (found : List Found) :
    ∃ cycles, materialize t found = .ok cycles := by
  induction found with
  | nil => exact ⟨_, rfl⟩
  | cons f found ih =>
    obtain ⟨es, hes⟩ := exists_members h f.ids
    obtain ⟨cycles, hcycles⟩ := ih
    unfold materialize
    rw [hes, hcycles]
    exact ⟨_, rfl⟩

/-! ### The search of a store -/

theorem mem_starts {g : DependencyGraph} {ids : List String} (hload : DependencyGraph.load t = .ok g)
    (h : starts options g t = .ok ids) (id : String) : id ∈ ids ↔ options.IsStart t id := by
  unfold starts at h
  unfold Options.IsStart
  cases hname : options.entityName with
  | none =>
    rw [hname] at h
    cases h
    exact DependencyGraph.mem_nodes_of_load hload
  | some name =>
    rw [hname] at h
    obtain ⟨es, hes, h⟩ := Tables.bind_eq_ok.mp h
    cases h
    rw [(Entities.byName_eq_ok hes).mem_iff, List.mem_map]
    simp only [List.mem_filter, beq_iff_eq, and_assoc]

theorem edge_iff_depends {g : DependencyGraph} (hload : DependencyGraph.load t = .ok g)
    {source target : String} : g.Edge source target ↔ t.Depends source target :=
  exists_congr fun _ => DependencyGraph.mem_dependencies_of_load hload

theorem compute_eq_ok {r : CycleReport} (h : compute options t = .ok r) :
    ∃ g ids ended s, DependencyGraph.load t = .ok g ∧ starts options g t = .ok ids ∧
      Search.runAll g options.maxCycles .initial ids = (ended, s) ∧
      materialize t s.found = .ok r.cycles ∧ r.summary = .ofCycles r.cycles !ended := by
  obtain ⟨g, hload, h⟩ := Tables.bind_eq_ok.mp h
  obtain ⟨ids, hids, h⟩ := Tables.bind_eq_ok.mp h
  obtain ⟨cycles, hcycles, h⟩ := Tables.bind_eq_ok.mp h
  cases h
  exact ⟨g, ids, _, _, hload, hids, rfl, hcycles, rfl⟩

theorem exists_compute (h : t.HoldsGraph) (options : Options) :
    ∃ r, compute options t = .ok r := by
  obtain ⟨g, hload⟩ := DependencyGraph.exists_load h
  obtain ⟨ids, hids⟩ : ∃ ids, starts options g t = .ok ids := by
    unfold starts
    cases options.entityName with
    | none => exact ⟨_, rfl⟩
    | some name =>
      obtain ⟨es, hes⟩ := Entities.exists_byName h name
      exact ⟨_, by dsimp only; rw [hes]; rfl⟩
  obtain ⟨cycles, hcycles⟩ :=
    exists_materialize h (Search.runAll g options.maxCycles .initial ids).2.found
  unfold compute
  rw [hload]
  show ∃ r, (starts options g t >>= _) = Except.ok r
  rw [hids]
  show ∃ r, (materialize t (Search.runAll g options.maxCycles .initial ids).2.found >>= _) =
    Except.ok r
  rw [hcycles]
  exact ⟨_, rfl⟩

/-- A closed cycle of the loaded graph shows as a cycle of the store. -/
theorem genuine_of_closed {g : DependencyGraph} {f : Found} {c : Cycle}
    (hload : DependencyGraph.load t = .ok g) (hclosed : f.Closed g) (hshows : Shows t f c)
    (hreached : ∀ id ∈ f.ids, options.Reaches t id) : c.Genuine options t := by
  have hids := hshows.ids
  have hlength : c.entities.length = f.ids.length := by
    rw [← hids, Cycle.ids, List.length_map]
  have hplace : ∀ {i : Nat} {e : Entity}, c.entities[i]? = some e → f.ids[i]? = some e.id := by
    intro i e he
    rw [← hids, Cycle.ids, List.getElem?_map, he, Option.map_some]
  refine ⟨hlength ▸ hclosed.two, hids ▸ hclosed.distinct, ?length, ?edges, ?stored, ?reached⟩
  case length =>
    rw [hshows.2, hlength, hclosed.length]
  case edges =>
    intro i a b ha hb
    obtain ⟨kind, hkind, hedge⟩ := hclosed.edges i a.id b.id (hplace ha) (hplace (hlength ▸ hb))
    exact ⟨kind, hshows.2 ▸ hkind, (DependencyGraph.mem_dependencies_of_load hload).mp hedge⟩
  case stored =>
    intro e he
    obtain ⟨id, _, hfind⟩ := exists_of_forall₂_of_mem_right hshows.1 he
    obtain ⟨r, hr, _, hread⟩ := Entities.find?_eq_some hfind
    exact ⟨r, hr, hread⟩
  case reached =>
    intro e he
    have hmem : e.id ∈ c.ids := List.mem_map_of_mem he
    exact hreached e.id (hids ▸ hmem)

/-- Cycles with different signatures show as cycles that are not turns of each other. -/
theorem pairwise_of_shows {kept : List Found} {cycles : List Cycle}
    (hshows : List.Forall₂ (Shows t) kept cycles) (hdistinct : ∀ f ∈ kept, f.ids.Nodup)
    (honce : (kept.map fun f => signature f.ids).Nodup) :
    cycles.Pairwise fun c d => ¬ c.ids ~r d.ids := by
  induction hshows with
  | nil => exact .nil
  | @cons f c kept cycles hfirst hrest ih =>
    rw [List.map_cons, List.nodup_cons] at honce
    have htail : ∀ f' ∈ kept, f'.ids.Nodup := fun f' hf' =>
      hdistinct f' (List.mem_cons_of_mem f hf')
    refine List.pairwise_cons.mpr ⟨fun d hd hrotated => ?_, ih htail honce.2⟩
    obtain ⟨f', hf', hshown⟩ := exists_of_forall₂_of_mem_right hrest hd
    rw [hfirst.ids, hshown.ids] at hrotated
    have hsign := signature_eq_of_isRotated (hdistinct f List.mem_cons_self) hrotated
    exact honce.1 (List.mem_map.mpr ⟨f', hf', hsign.symm⟩)

theorem recorded_of_runAll {g : DependencyGraph} {ids : List String} {maxCycles : Nat}
    {ended : Bool} {s : Search} (hload : DependencyGraph.load t = .ok g)
    (hrun : Search.runAll g maxCycles .initial ids = (ended, s)) :
    Search.Aligned g s ∧ Search.Recorded g ids s := by
  obtain ⟨hsteps, _⟩ := Search.runAll_next (DependencyGraph.isBuilt_of_load hload)
    (List.Subset.refl ids) .initial rfl hrun
  exact ⟨(Search.aligned_of_next hsteps .initial).1,
    Search.recorded_of_next hsteps .initial .initial⟩

theorem compute_genuine {r : CycleReport} (h : compute options t = .ok r) :
    r.Genuine options t := by
  obtain ⟨g, ids, ended, s, hload, hids, hrun, hcycles, hsummary⟩ := compute_eq_ok h
  obtain ⟨_, hrecorded⟩ := recorded_of_runAll hload hrun
  obtain ⟨kept, hsub, hshows, _⟩ := materialize_eq_ok hcycles
  have hreached : ∀ f ∈ s.found, ∀ id ∈ f.ids, options.Reaches t id := by
    intro f hf id hid
    obtain ⟨start, hstart, hreach⟩ := hrecorded.reached id (hrecorded.met f hf hid)
    refine ⟨start, (mem_starts hload hids start).mp hstart, ?_⟩
    exact hreach.lift (fun other => other) fun _ _ => (edge_iff_depends hload).mp
  have hcycle : ∀ c ∈ r.cycles, c.Genuine options t := by
    intro c hc
    obtain ⟨f, hf, hshown⟩ := exists_of_forall₂_of_mem_right hshows hc
    exact genuine_of_closed hload (hrecorded.closed f (hsub.subset hf)) hshown
      (hreached f (hsub.subset hf))
  have hdifferent : r.cycles.Pairwise fun c d => ¬ c.ids ~r d.ids :=
    pairwise_of_shows hshows (fun f hf => (hrecorded.closed f (hsub.subset hf)).distinct)
      ((hsub.map _).nodup hrecorded.once)
  refine ⟨hcycle, hdifferent, ?total, ?unique, ?shortest, ?longest⟩
  case total =>
    rw [hsummary]
    rfl
  case unique =>
    rw [hsummary]
    exact CycleSummary.unique_ofCycles r.cycles _
  case shortest =>
    rw [hsummary]
    exact CycleSummary.shortest_ofCycles r.cycles _
  case longest =>
    rw [hsummary]
    exact CycleSummary.longest_ofCycles r.cycles _

theorem find_runOn (db : Database) :
    (find options).runOn db = (compute options db.tables, db) :=
  StoreM.runOn_snapshot_query _ _

/-- The search gives a report on tables that can be queried, changes nothing, and is right about what
it lists. -/
theorem find_genuine (options : Options) (db : Database) :
    (db.tables.HoldsGraph → ∃ r, (find options).runOn db = (.ok r, db)) ∧
      ∀ r after, (find options).runOn db = (.ok r, after) →
        after = db ∧ r.Genuine options db.tables := by
  rw [find_runOn]
  refine ⟨fun h => ?_, fun r after h => ?_⟩
  · obtain ⟨r, hr⟩ := exists_compute h options
    exact ⟨r, by rw [hr]⟩
  · obtain ⟨hcompute, hafter⟩ := Prod.mk.inj h
    exact ⟨hafter.symm, compute_genuine hcompute⟩

/-- stores three functions on two cycles that share an edge -/
def storingTwoCycles : Script :=
  .call (.resolve
    [⟨.function, "a", "/a.ts", 1, 2, "typescript", none⟩,
      ⟨.function, "b", "/b.ts", 1, 2, "typescript", none⟩,
      ⟨.function, "c", "/c.ts", 1, 2, "typescript", none⟩]
    [⟨.calls, "a", "b", some "/a.ts", some "/b.ts", none⟩,
      ⟨.imports, "b", "c", some "/b.ts", some "/c.ts", none⟩,
      ⟨.extends, "c", "a", some "/c.ts", some "/a.ts", none⟩,
      ⟨.implements, "b", "a", some "/b.ts", some "/a.ts", none⟩])

theorem holdsGraph_storingTwoCycles :
    (storingTwoCycles.run.runOn (Database.opened true)).2.tables.HoldsGraph := by
  have hmem := storingTwoCycles.final_mem_visited (Database.opened true)
  have hsound := (storingTwoCycles.visited_sound (Database.opened_sound true) _ hmem).tables
  refine hsound.holdsGraph ?_ ?_
  · rw [Database.opened_true]
    decide +kernel
  · rw [Database.opened_true]
    decide +kernel

theorem find_genuine_two :
    ∃ db r, (find {}).runOn db = (.ok r, db) ∧
      r.cycles.map (fun c => (c.entities.map (·.name), c.links)) =
        [(["a", "b", "c"], [.calls, .imports, .extends]), (["a", "b"], [.calls, .implements])] ∧
      r.Genuine {} db.tables := by
  obtain ⟨hexists, hgenuine⟩ :=
    find_genuine {} (storingTwoCycles.run.runOn (Database.opened true)).2
  obtain ⟨r, hr⟩ := hexists holdsGraph_storingTwoCycles
  have hlist : ((find {}).runOn (storingTwoCycles.run.runOn (Database.opened true)).2).1.map
      (fun r => r.cycles.map fun c => (c.entities.map (·.name), c.links)) =
      .ok [(["a", "b", "c"], [.calls, .imports, .extends]), (["a", "b"], [.calls, .implements])] := by
    rw [Database.opened_true]
    decide +kernel
  rw [hr] at hlist
  exact ⟨_, r, hr, Except.ok.inj hlist, (hgenuine r _ hr).2⟩

end Cycles

end CodeAtlas
