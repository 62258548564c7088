import CodeAtlas.Proofs.Integrity
import CodeAtlas.Proofs.Query.Breadth
import CodeAtlas.Proofs.Query.Summary

/-!
# Blast radius and distances

The blast radius of a file lists the entities outside of it by their distance to it: each one once,
nearest first, up to the last level.

* `BlastRadius.Exact`            what it means that a report is right;
* `BlastRadius.run_eq_ok`        whatever is reported is right;
* `BlastRadius.distances_listed` the same for every state of every script.
-/

namespace CodeAtlas

namespace BlastRadius

/-- the report of a file lists exactly what depends on it within a number of levels -/
structure Exact (t : Tables) (filePath : String) (maxDepth : Nat) (r : BlastRadius) : Prop where
  sourceFile : r.sourceFile = filePath
  listed : ∀ (e : Entity) (depth : Nat),
    (∃ a ∈ r.affected, a.entity = e ∧ a.depth = depth) ↔
      (∃ row ∈ t.entityRows, row.read = .ok e) ∧ e.filePath ≠ filePath ∧
        t.Distance filePath e.id (depth + 1) ∧ depth + 1 ≤ maxDepth
  once : (r.affected.map fun a => a.entity.id).Nodup
  sorted : r.affected.Pairwise fun a b => a.depth ≤ b.depth
  kinds : ∀ a ∈ r.affected, a.kind.isDependency = true ∧
    (a.depth = 0 ∧ (∃ row ∈ t.entityRows, row.filePath = filePath ∧
        t.HasEdge a.entity.id row.id a.kind.name) ∨
      ∃ b ∈ r.affected, b.depth + 1 = a.depth ∧ t.HasEdge a.entity.id b.entity.id a.kind.name)
  total : r.summary.totalAffected = r.affected.length
  deepest : (∀ a ∈ r.affected, a.depth ≤ r.summary.maxDepth) ∧
    (r.affected = [] ∧ r.summary.maxDepth = 0 ∨ ∃ a ∈ r.affected, a.depth = r.summary.maxDepth)
  direct : r.summary.directDependents = r.affected.countP (·.depth = 0)

/-! ### Files on which nothing depends -/

variable {t : Tables} {sourceFile : String} {maxDepth : Nat}

theorem exact_empty (h : ∀ id n, n ≤ maxDepth → 0 < n → ¬ t.LeadsTo sourceFile n id) :
    Exact t sourceFile maxDepth (empty sourceFile) where
  sourceFile := rfl
  listed e depth := by
    refine ⟨nofun, ?_⟩
    rintro ⟨_, _, ⟨hleads, _⟩, hdepth⟩
    exact absurd hleads (h e.id (depth + 1) hdepth (Nat.succ_pos _))
  once := .nil
  sorted := .nil
  kinds := nofun
  total := rfl
  deepest := ⟨nofun, .inl ⟨rfl, rfl⟩⟩
  direct := rfl

/-- Nothing leads to a file without entities. -/
theorem not_leadsTo (h : ∀ id, ¬ t.LeadsTo sourceFile 0 id) (n : Nat) (id : String) :
    ¬ t.LeadsTo sourceFile n id := by
  induction n generalizing id with
  | zero => exact h id
  | succ n ih =>
    rintro ⟨target, _, hleads⟩
    exact ih target hleads

/-! ### Searches -/

theorem mem_seeds {es : List Entity} (h : Entities.byFile sourceFile t = .ok es) (id : String) :
    id ∈ es.map Entity.id ↔ t.LeadsTo sourceFile 0 id := by
  rw [(Entities.byFile_eq_ok h).mem_iff, List.mem_map]
  simp only [List.mem_filter, beq_iff_eq, and_assoc]
  rfl

theorem seeds_nodup {es : List Entity} (hids : (t.entityRows.map EntityRow.id).Nodup)
    (h : Entities.byFile sourceFile t = .ok es) : (es.map Entity.id).Nodup :=
  (Entities.byFile_eq_ok h).nodup_iff.mpr ((List.filter_sublist.map _).nodup hids)

/-- The links of a loaded graph lead to its own ids, which are ids of stored entities. -/
theorem links_of_load {g : DependencyGraph} (hload : DependencyGraph.load t = .ok g)
    (hends : ∀ r ∈ t.relationshipRows,
      (∃ e ∈ t.entityRows, e.id = r.sourceId) ∧ (∃ e ∈ t.entityRows, e.id = r.targetId)) :
    ∀ id, ∀ link ∈ g.dependents id,
      link.entityId ∈ g.nodes ∧ ∃ r ∈ t.entityRows, r.id = link.entityId := by
  intro id link hlink
  have hedge := (DependencyGraph.mem_dependents_of_load hload).mp hlink
  refine ⟨(DependencyGraph.mem_nodes_of_load hload).mpr ⟨id, .inl ⟨link.kind, hedge⟩⟩, ?_⟩
  obtain ⟨_, r, hr, hsource, _, _⟩ := hedge
  exact hsource ▸ (hends r hr).1

theorem exact_of_invariant {g : DependencyGraph} {seeds : List String} {s : Search}
    {expanded : List (String × Nat)} (hids : (t.entityRows.map EntityRow.id).Nodup)
    (hload : DependencyGraph.load t = .ok g)
    (hseeds : ∀ id, id ∈ seeds ↔ t.LeadsTo sourceFile 0 id)
    (h : Search.Invariant g t maxDepth seeds expanded s) (hend : s.queue = []) :
    Exact t sourceFile maxDepth ⟨sourceFile, s.affected, summarize s.affected⟩ := by
  have hlevel : ∀ {id n}, (id, n) ∈ s.levels seeds ↔
      n ≤ maxDepth ∧ t.Distance sourceFile id n :=
    h.mem_levels (DependencyGraph.mem_dependents_of_load hload) hseeds hend
  have haffected : ∀ a ∈ s.affected, (a.entity.id, a.depth + 1) ∈ s.levels seeds := fun a ha =>
    List.mem_append_right _ (List.mem_map_of_mem (f := fun a => (a.entity.id, a.depth + 1)) ha)
  refine ⟨rfl, fun e depth => ⟨?listed, ?found⟩, ?once, ?sorted, fun a ha => ?kinds, rfl,
    deepest_summarize _, direct_summarize _⟩
  case listed =>
    rintro ⟨a, ha, rfl, rfl⟩
    obtain ⟨row, hrow, hread⟩ := h.stored a ha
    obtain ⟨hdeep, hdistance⟩ := hlevel.mp (haffected a ha)
    refine ⟨⟨row, hrow, hread⟩, fun hfile => ?_, hdistance, hdeep⟩
    -- an entity of the file is at distance zero
    obtain ⟨hid, _, hpath⟩ := EntityRow.read_eq_ok hread
    exact hdistance.2 0 (Nat.succ_pos _) ⟨row, hrow, hpath.symm.trans hfile, hid.symm⟩
  case found =>
    rintro ⟨⟨row, hrow, hread⟩, _, hdistance, hdeep⟩
    have hmem : ∃ a ∈ s.affected, a.entity.id = e.id ∧ a.depth = depth := by
      simpa [Search.levels] using hlevel.mpr ⟨hdeep, hdistance⟩
    obtain ⟨a, ha, hid, hdepth⟩ := hmem
    obtain ⟨row', hrow', hread'⟩ := h.stored a ha
    have hrows : row' = row := by
      refine List.inj_on_of_nodup_map hids hrow' hrow ?_
      rw [← (EntityRow.read_eq_ok hread').1, ← (EntityRow.read_eq_ok hread).1, hid]
    rw [hrows, hread] at hread'
    exact ⟨a, ha, (Except.ok.inj hread').symm, hdepth⟩
  case once =>
    have hdistinct := h.distinct
    unfold Search.levels at hdistinct
    rw [List.map_append, List.map_map, List.map_map] at hdistinct
    exact (List.nodup_append.mp hdistinct).2.1
  case sorted =>
    have hsorted := (List.pairwise_append.mp h.sorted).2.1
    rw [List.pairwise_map] at hsorted
    exact hsorted.imp fun hle => Nat.le_of_succ_le_succ hle
  case kinds =>
    obtain ⟨target, htarget, hlink⟩ := h.reached a ha
    obtain ⟨hkind, hedge⟩ := (DependencyGraph.mem_dependents_of_load hload).mp hlink
    refine ⟨hkind, ?_⟩
    rcases List.mem_append.mp htarget with hmem | hmem
    · obtain ⟨seed, hseed, heq⟩ := List.mem_map.mp hmem
      obtain ⟨rfl, hzero⟩ := Prod.mk.inj heq
      obtain ⟨row, hrow, hpath, hid⟩ := (hseeds seed).mp hseed
      exact .inl ⟨hzero.symm, row, hrow, hpath, hid ▸ hedge⟩
    · obtain ⟨b, hb, heq⟩ := List.mem_map.mp hmem
      obtain ⟨rfl, hdepth⟩ := Prod.mk.inj heq
      exact .inr ⟨b, hb, hdepth, hedge⟩

theorem compute_eq_ok {r : BlastRadius} (hdepth : 0 < maxDepth) (hintegrity : t.Integrity)
    (h : compute sourceFile maxDepth t = .ok r) : Exact t sourceFile maxDepth r := by
  obtain ⟨es, hes, h⟩ := Tables.bind_eq_ok.mp h
  have hseeds := mem_seeds hes
  dsimp only at h
  split at h
  · rename_i hnone
    cases h
    refine exact_empty fun id n _ _ => not_leadsTo (fun seed hseed => ?_) n id
    rw [← hseeds, List.isEmpty_iff.mp hnone] at hseed
    exact List.not_mem_nil hseed
  · obtain ⟨g, hload, h⟩ := Tables.bind_eq_ok.mp h
    obtain ⟨s, hloop, h⟩ := Tables.bind_eq_ok.mp h
    have hlinks := links_of_load hload hintegrity.ends
    obtain ⟨hsteps, hend⟩ := Search.loop_eq_ok hlinks Search.remaining_start hloop
    obtain ⟨expanded, hinv⟩ := (Search.invariant_start hdepth (seeds_nodup hintegrity.ids hes)).steps
      (fun id link hlink => (hlinks id link hlink).2) hsteps
    cases h
    exact exact_of_invariant hintegrity.ids hload hseeds hinv hend

theorem exists_compute (h : t.HoldsGraph) (sourceFile : String) (maxDepth : Nat) :
    ∃ r, compute sourceFile maxDepth t = .ok r := by
  obtain ⟨es, hes⟩ := Entities.exists_byFile h sourceFile
  unfold compute
  rw [hes]
  show ∃ r, (if (es.map Entity.id).isEmpty = true then _ else _) = Except.ok r
  split
  · exact ⟨_, rfl⟩
  · obtain ⟨g, hload⟩ := DependencyGraph.exists_load h
    obtain ⟨s, hs⟩ : ∃ s, Search.loop g t maxDepth (Search.bound g (es.map Entity.id))
        (Search.start (es.map Entity.id)) = .ok s := Search.exists_loop h _ _
    rw [hload]
    show ∃ r, (Search.loop g t maxDepth _ _ >>= _) = Except.ok r
    rw [hs]
    exact ⟨_, rfl⟩

theorem run_runOn (hdepth : 0 < maxDepth) (db : Database) :
    (run sourceFile maxDepth).runOn db = (compute sourceFile maxDepth db.tables, db) := by
  unfold run
  rw [if_neg (Nat.pos_iff_ne_zero.mp hdepth), StoreM.runOn_snapshot_query]

/-- What is reported is right, and reporting changes nothing. -/
theorem run_eq_ok {r : BlastRadius} {db after : Database} (hintegrity : db.tables.Integrity)
    (h : (run sourceFile maxDepth).runOn db = (.ok r, after)) :
    after = db ∧ Exact db.tables sourceFile maxDepth r := by
  rcases Nat.eq_zero_or_pos maxDepth with rfl | hdepth
  · cases h
    exact ⟨rfl, exact_empty fun id n hle hpos => absurd hle (Nat.not_le.mpr hpos)⟩
  · rw [run_runOn hdepth] at h
    obtain ⟨hcompute, hafter⟩ := Prod.mk.inj h
    exact ⟨hafter.symm, compute_eq_ok hdepth hintegrity hcompute⟩

theorem exists_run {db : Database} (h : db.tables.HoldsGraph) (sourceFile : String)
    (maxDepth : Nat) : ∃ r, (run sourceFile maxDepth).runOn db = (.ok r, db) := by
  rcases Nat.eq_zero_or_pos maxDepth with rfl | hdepth
  · exact ⟨_, rfl⟩
  · obtain ⟨r, hr⟩ := exists_compute h sourceFile maxDepth
    exact ⟨r, by rw [run_runOn hdepth, hr]⟩

/-- In every state of every script the blast radius of a file is given by the distances to it. With
the tables of the graph in place there always is one. The depth counter of the
search stays within the limit. -/
theorem distances_listed (migrated : Bool) (p : Script) (state : Database)
    (h : state ∈ p.visited (Database.opened migrated)) (sourceFile : String) (maxDepth : Nat) :
    (state.tables.entities.isSome = true → state.tables.relationships.isSome = true →
      ∃ r, (run sourceFile maxDepth).runOn state = (.ok r, state)) ∧
    (∀ r after, (run sourceFile maxDepth).runOn state = (.ok r, after) →
      after = state ∧ Exact state.tables sourceFile maxDepth r) ∧
    (∀ g seeds s, DependencyGraph.load state.tables = .ok g →
      Entities.byFile sourceFile state.tables = .ok seeds → 0 < maxDepth →
      Relation.ReflTransGen (Search.Steps g state.tables maxDepth)
        (Search.start (seeds.map Entity.id)) s →
      ∀ q ∈ s.queue, q.2 + 1 ≤ maxDepth) := by
  have hsound := (p.visited_sound (Database.opened_sound migrated) state h).tables
  have hintegrity := hsound.integrity
  refine ⟨fun hents hrels => exists_run (hsound.holdsGraph hents hrels) _ _,
    fun r after hrun => run_eq_ok hintegrity hrun, ?_⟩
  intro g seeds s hload hseeds hdepth hsteps q hq
  have hlinks := links_of_load hload hintegrity.ends
  obtain ⟨expanded, hinv⟩ := (Search.invariant_start hdepth (seeds_nodup hintegrity.ids hseeds)).steps
    (fun id link hlink => (hlinks id link hlink).2) hsteps
  exact hinv.queue_lt q hq

/-- stores three functions, each of which depends on the next one, and a part of the first one -/
def storingRound : Script :=
  .call (.resolve
    [⟨.function, "a", "/a.ts", 1, 2, "typescript", none⟩,
      ⟨.function, "b", "/b.ts", 1, 2, "typescript", none⟩,
      ⟨.function, "c", "/c.ts", 1, 2, "typescript", none⟩]
    [⟨.calls, "a", "b", some "/a.ts", some "/b.ts", none⟩,
      ⟨.imports, "b", "c", some "/b.ts", some "/c.ts", none⟩,
      ⟨.extends, "c", "a", some "/c.ts", some "/a.ts", none⟩,
      ⟨.contains, "b", "a", some "/b.ts", some "/a.ts", none⟩])

theorem distances_listed_round :
    ∃ state ∈ storingRound.visited (Database.opened true), ∃ r,
      (run "/a.ts" 50).runOn state = (.ok r, state) ∧
        r.affected.map (fun a => (a.entity.name, a.depth, a.kind)) =
          [("c", 0, .extends), ("b", 1, .imports)] ∧
        Exact state.tables "/a.ts" 50 r := by
  have hmem := storingRound.final_mem_visited (Database.opened true)
  obtain ⟨hexists, hexact, _⟩ := distances_listed true storingRound _ hmem "/a.ts" 50
  obtain ⟨r, hr⟩ := hexists (by rw [Database.opened_true]; decide +kernel)
    (by rw [Database.opened_true]; decide +kernel)
  have hlist : (((run "/a.ts" 50).runOn (storingRound.run.runOn (Database.opened true)).2).1.map
      fun r => r.affected.map fun a => (a.entity.name, a.depth, a.kind)) =
      .ok [("c", 0, .extends), ("b", 1, .imports)] := by
    rw [Database.opened_true]
    decide +kernel
  refine ⟨_, hmem, r, hr, ?_, (hexact r _ hr).2⟩
  rw [hr] at hlist
  exact Except.ok.inj hlist

end BlastRadius

end CodeAtlas
