import CodeAtlas.Proofs.Index.Replacement
import CodeAtlas.Proofs.Store.Success

/-!
# Resolving a batch edge by edge

Whatever the store, a batch of the resolver that succeeds did what looking up each end by itself, in
the rows after the entities of the batch were stored, would have done.

* `EntityRow.lookup`             an end, looked up in rows;
* `ExtractedRelationship.edge?`  the edge between two ends that are looked up;
* `collisionsOver`               the entities of a batch whose name was taken;
* `Resolution`                   what a batch did, in these terms;
* `Resolver.resolve_lookup`      every batch that succeeds did this.
-/

namespace CodeAtlas

/-! ### Ends, one by one -/

/-- the row that is meant by a name in a file: the last one that has both; none without a file -/
def EntityRow.lookup (rows : List EntityRow) (filePath : Option String) (name : String) :
    Option EntityRow :=
  filePath.bind fun path => named rows path name

/-- the edge between the ends that a relationship names, if both of them are found -/
def ExtractedRelationship.edge? (rows : List EntityRow) (r : ExtractedRelationship) :
    Option NewRelationship := do
  let source ← EntityRow.lookup rows r.sourceFilePath r.sourceName
  let target ← EntityRow.lookup rows r.targetFilePath r.targetName
  return ⟨source.id, target.id, r.kind, r.metadata⟩

/-- each entity of a batch whose name was taken by a row before it, in their order -/
def collisionsOver (rows : List EntityRow) (es : List Entity) : List NameCollision :=
  es.zipIdx.filterMap fun (e, place) =>
    (EntityRow.named (rows ++ (es.take place).map .ofEntity) e.filePath e.name).map fun taken =>
      ⟨e.filePath, e.name, taken.id, e.id⟩

/-- what a batch reports is in the rows, and nothing but the rows of these two tables was changed -/
structure Written (db after : Database) (r : ResolutionReport) : Prop where
  entityRows : after.tables.entityRows = db.tables.entityRows ++ r.entities.map .ofEntity
  relationshipRows : after.tables.relationshipRows =
    db.tables.relationshipRows ++ r.relationships.map .ofRelationship
  unchanged : after = { db with
    tables := { db.tables with
      entities := db.tables.entities.map (.extend (r.entities.map .ofEntity))
      relationships := db.tables.relationships.map (.extend (r.relationships.map .ofRelationship)) }
    idsUsed := after.idsUsed }

/-- what a batch of entities and relationships did -/
structure Resolution (db after : Database) (es : List NewEntity) (rs : List ExtractedRelationship)
    (r : ResolutionReport) : Prop extends Written db after r where
  entities : r.entities.map Entity.toNewEntity = es
  /-- an edge is found if both files are given and have an entity of the name -/
  found : ∀ rel : ExtractedRelationship, (rel.edge? after.tables.entityRows).isSome = true ↔
    (∃ row ∈ after.tables.entityRows,
      rel.sourceFilePath = some row.filePath ∧ rel.sourceName = row.name) ∧
    ∃ row ∈ after.tables.entityRows,
      rel.targetFilePath = some row.filePath ∧ rel.targetName = row.name
  resolved : r.resolved = (rs.filterMap (·.edge? after.tables.entityRows)).length
  dropped : r.resolved + r.dropped = rs.length
  duplicates : r.resolved = r.relationships.length + r.duplicates
  /-- the new edges are those that were found and not stored, -/
  new : ∀ triple, triple ∈ r.relationships.map (·.triple) ↔
    triple ∈ (rs.filterMap (·.edge? after.tables.entityRows)).map (·.triple) ∧
      ¬ db.tables.HasEdge triple.1 triple.2.1 triple.2.2.name
  /-- each of them once, -/
  once : (r.relationships.map (·.triple)).Nodup
  /-- as it was found first -/
  first : ∀ x ∈ r.relationships,
    (rs.filterMap (·.edge? after.tables.entityRows)).find? (fun e => e.triple = x.triple) =
      some x.toNewRelationship
  collisions : r.collisions = collisionsOver db.tables.entityRows r.entities

section

variable {rows : List EntityRow}

theorem EntityRow.exists_named_iff {filePath name : String} :
    (∃ row, named rows filePath name = some row) ↔
      ∃ row ∈ rows, filePath = row.filePath ∧ name = row.name := by
  constructor
  · rintro ⟨row, hrow⟩
    obtain ⟨hmem, rfl, rfl⟩ := named_mem hrow
    exact ⟨row, hmem, rfl, rfl⟩
  · rintro ⟨row, hmem, rfl, rfl⟩
    have hfilter : row ∈ rows.filter fun r => r.filePath == row.filePath && r.name == row.name :=
      List.mem_filter.mpr ⟨hmem, by simp⟩
    exact ⟨_, List.getLast?_eq_some_getLast (List.ne_nil_of_mem hfilter)⟩

theorem EntityRow.exists_lookup_iff {filePath : Option String} {name : String} :
    (∃ row, lookup rows filePath name = some row) ↔
      ∃ row ∈ rows, filePath = some row.filePath ∧ name = row.name := by
  cases filePath with
  | none => simp [lookup]
  | some path =>
    simp only [Option.some_inj]
    exact exists_named_iff

theorem ExtractedRelationship.edge?_eq_some {r : ExtractedRelationship} {new : NewRelationship} :
    r.edge? rows = some new ↔
      ∃ source target, EntityRow.lookup rows r.sourceFilePath r.sourceName = some source ∧
        EntityRow.lookup rows r.targetFilePath r.targetName = some target ∧
        new = ⟨source.id, target.id, r.kind, r.metadata⟩ := by
  unfold edge?
  cases EntityRow.lookup rows r.sourceFilePath r.sourceName with
  | none => simp
  | some source =>
    cases EntityRow.lookup rows r.targetFilePath r.targetName with
    | none => simp
    | some target => simp [eq_comm]

/-- An edge is found exactly if both files are given and have an entity of the name. -/
theorem ExtractedRelationship.isSome_edge? (r : ExtractedRelationship) :
    (r.edge? rows).isSome = true ↔
      (∃ row ∈ rows, r.sourceFilePath = some row.filePath ∧ r.sourceName = row.name) ∧
        ∃ row ∈ rows, r.targetFilePath = some row.filePath ∧ r.targetName = row.name := by
  rw [← EntityRow.exists_lookup_iff, ← EntityRow.exists_lookup_iff, Option.isSome_iff_exists]
  simp only [edge?_eq_some]
  constructor
  · rintro ⟨_, source, target, hsource, htarget, _⟩
    exact ⟨⟨source, hsource⟩, target, htarget⟩
  · rintro ⟨⟨source, hsource⟩, target, htarget⟩
    exact ⟨_, source, target, hsource, htarget, rfl⟩

end

/-! ### The cache -/

namespace EntityCache

/-- The cache of rows finds the ids of what is looked up in the rows. -/
theorem lookup_eq (rows : List EntityRow) (filePath : Option String) (name : String) :
    (ofRows rows).lookup filePath name =
      (EntityRow.lookup rows filePath name).map EntityRow.id := by
  cases filePath with
  | none => rfl
  | some path => exact lookup_ofRows rows path name

theorem load_eq_ok {t : Tables} {c : EntityCache} (h : load t = .ok c) :
    ∃ table, t.entities = some table ∧ c = .ofRows table.rows := by
  cases htable : t.entities with
  | none =>
    obtain ⟨rows, hrows, _⟩ := Tables.bind_eq_ok.mp h
    unfold Entities.rows Tables.entityTable at hrows
    rw [htable] at hrows
    cases hrows
  | some table =>
    rw [load_eq htable] at h
    exact ⟨table, rfl, (Except.ok.inj h).symm⟩

end EntityCache

namespace Resolver

open StoreM

theorem bind?_eq_edge? (rows : List EntityRow) (r : ExtractedRelationship) :
    bind? (.ofRows rows) r = r.edge? rows := by
  unfold bind? ExtractedRelationship.edge?
  rw [EntityCache.lookup_eq, EntityCache.lookup_eq]
  cases EntityRow.lookup rows r.sourceFilePath r.sourceName with
  | none => rfl
  | some source =>
    cases EntityRow.lookup rows r.targetFilePath r.targetName with
    | none => rfl
    | some target => rfl

theorem collisionsOver_cons (rows : List EntityRow) (e : Entity) (es : List Entity) :
    collisionsOver rows (e :: es) =
      ((EntityRow.named rows e.filePath e.name).map fun taken =>
          (⟨e.filePath, e.name, taken.id, e.id⟩ : NameCollision)).toList ++
        collisionsOver (rows ++ [.ofEntity e]) es := by
  unfold collisionsOver
  rw [List.zipIdx_cons, List.zipIdx_succ, List.filterMap_cons, List.filterMap_map]
  have hrest : ∀ place, rows ++ ((e :: es).take (place + 1)).map .ofEntity =
      (rows ++ [.ofEntity e]) ++ (es.take place).map EntityRow.ofEntity := by
    intro place
    rw [List.take_succ_cons, List.map_cons, List.append_assoc, List.singleton_append]
  simp only [List.take_zero, List.map_nil, List.append_nil, Function.comp_def, hrest]
  cases EntityRow.named rows e.filePath e.name <;> rfl

/-- The cache reports the entities whose name was taken. -/
theorem cacheAll_snd (rows : List EntityRow) (es : List Entity) :
    (cacheAll (.ofRows rows) es).2 = collisionsOver rows es := by
  induction es generalizing rows with
  | nil => rfl
  | cons e es ih =>
    have hcache : ((EntityCache.ofRows rows).insert e.filePath e.name e.id).2 =
        .ofRows (rows ++ [.ofEntity e]) := by
      rw [EntityCache.ofRows, EntityCache.ofRows, List.foldl_append]
      rfl
    have htaken : ((EntityCache.ofRows rows).insert e.filePath e.name e.id).1 =
        (EntityRow.named rows e.filePath e.name).map EntityRow.id :=
      EntityCache.lookup_ofRows rows e.filePath e.name
    rw [collisionsOver_cons, ← ih, ← hcache, cacheAll]
    dsimp only
    rw [htaken]
    cases EntityRow.named rows e.filePath e.name <;> rfl

/-! ### Batches that succeed -/

section

variable {es : List NewEntity} {rs : List ExtractedRelationship} {db after : Database}
  {r : ResolutionReport}

theorem resolveWithin_eq_ok (h : (resolveWithin es rs).runOn db = (.ok r, after)) :
    r = report db.tables db.idsUsed es rs ∧ Written db after r := by
  obtain ⟨cache, _, hload, h⟩ := runOn_bind_eq_ok.mp h
  obtain ⟨hcache, rfl⟩ := Prod.mk.inj hload
  obtain ⟨table, htable, rfl⟩ := EntityCache.load_eq_ok hcache
  have hrows := Tables.entityRows_of_some htable
  obtain ⟨inserted, mid, hinserted, h⟩ := runOn_bind_eq_ok.mp h
  obtain ⟨rfl, rfl⟩ := Entities.createBatch_eq_ok htable hinserted
  rw [← hrows] at h
  obtain ⟨created, last, hcreated, h⟩ := runOn_bind_eq_ok.mp h
  obtain ⟨hnew, hlast, hedgeRows⟩ := Relationships.createBatch_eq_ok hcreated
  rw [cacheAll_numbered] at hnew hlast h
  obtain ⟨hreport, rfl⟩ := Prod.mk.inj h
  have hr := (Except.ok.inj hreport).symm
  have hsame : r = report db.tables db.idsUsed es rs := by
    rw [hr, hnew]
    rfl
  refine ⟨hsame, ?_, ?_, ?_⟩
  · rw [hlast, hrows, hr]
    rfl
  · rw [hedgeRows, hr]
    rfl
  · rw [hlast, hr, htable]
    rfl

/-- A report says what was found in the rows after the entities were stored. -/
theorem resolution_of_report {n : Nat} (h : Written db after (report db.tables n es rs)) :
    Resolution db after es rs (report db.tables n es rs) := by
  have hrows : after.tables.entityRows = db.tables.entityRows ++ newRows n es := h.entityRows
  have hedges : rs.filterMap (bind? (.ofRows after.tables.entityRows)) =
      rs.filterMap (·.edge? after.tables.entityRows) :=
    congrArg (rs.filterMap ·) (funext (bind?_eq_edge? _))
  have hcreated : (report db.tables n es rs).relationships =
      Relationships.fresh db.tables.relationshipRows
        (Relationships.numbered (n + es.length)
          (rs.filterMap (·.edge? after.tables.entityRows))) := by
    rw [← hedges, hrows]
    rfl
  have hresolved : (report db.tables n es rs).resolved =
      (rs.filterMap (·.edge? after.tables.entityRows)).length := by
    rw [← hedges, hrows]
    rfl
  have hdropped : (report db.tables n es rs).dropped =
      rs.length - (report db.tables n es rs).resolved := rfl
  have hduplicates : (report db.tables n es rs).duplicates =
      (report db.tables n es rs).resolved - (report db.tables n es rs).relationships.length := rfl
  have hfound := List.length_filterMap_le (·.edge? after.tables.entityRows) rs
  have hnew : (report db.tables n es rs).relationships.length ≤
      (rs.filterMap (·.edge? after.tables.entityRows)).length := by
    rw [hcreated]
    exact Relationships.length_fresh_numbered_le
  refine ⟨h, Entities.numbered_map_toNewEntity n es, fun rel => rel.isSome_edge?, hresolved,
    by omega, by omega, fun triple => ?new, ?once, fun x hx => ?first, cacheAll_snd _ _⟩
  case new =>
    rw [hcreated, Relationships.mem_fresh_numbered]
    rfl
  case once =>
    rw [hcreated]
    exact Relationships.fresh_nodup
  case first =>
    rw [hcreated] at hx
    exact Relationships.fresh_numbered_first hx

theorem resolution_of_runOn (h : (resolve es rs).runOn db = (.ok r, after)) :
    Resolution db after es rs r := by
  obtain ⟨mid, hbody, hafter⟩ := runOn_transaction_eq_ok (resolveWithin_balanced es rs) h
  obtain ⟨rfl, hentities, hedges, hunchanged⟩ := resolveWithin_eq_ok hbody
  rw [db.entered_tables, db.entered_idsUsed] at hentities hedges hunchanged ⊢
  refine resolution_of_report ⟨?_, ?_, ?_⟩
  · rw [hafter, hentities]
  · rw [hafter, hedges]
  · rw [hafter, hunchanged]

/-- A batch of valid entities succeeds on tables that are ready for it. Whatever the store, a batch
that succeeds did what looking up each end by itself would have done. -/
theorem resolve_lookup (es : List NewEntity) (rs : List ExtractedRelationship) (db : Database) :
    (db.tables.Ready → (∀ row ∈ db.tables.entityRows, ∃ k, row.id = idOf k) →
      es.forM NewEntity.validate = .ok () →
      ∃ r after, (resolve es rs).runOn db = (.ok r, after)) ∧
    ∀ r after, (resolve es rs).runOn db = (.ok r, after) → Resolution db after es rs r := by
  refine ⟨fun hready hissued hvalid => ?_, fun r after hrun => resolution_of_runOn hrun⟩
  exact ⟨_, _, resolve_runOn es rs db hready hissued hvalid⟩

/-- a store with a function that calls itself, and another one -/
def storedCall : Database :=
  ((resolve
    [⟨.function, "a", "/a.ts", 1, 2, "typescript", none⟩,
      ⟨.function, "b", "/b.ts", 1, 2, "typescript", none⟩]
    [⟨.calls, "b", "b", some "/b.ts", some "/b.ts", none⟩]).runOn { tables := .migrated }).2

/-- two functions of a name that is stored already -/
def shadowing : List NewEntity :=
  [⟨.function, "a", "/a.ts", 5, 6, "typescript", none⟩,
    ⟨.function, "a", "/a.ts", 8, 9, "typescript", none⟩]

/-- a call that is stored, one that is there twice, one without a file and one of an unknown name -/
def repeatedCalls : List ExtractedRelationship :=
  [⟨.calls, "b", "b", some "/b.ts", some "/b.ts", none⟩,
    ⟨.calls, "a", "b", some "/a.ts", some "/b.ts", some [("first", .bool true)]⟩,
    ⟨.calls, "a", "b", some "/a.ts", some "/b.ts", none⟩,
    ⟨.calls, "a", "b", none, some "/b.ts", none⟩,
    ⟨.calls, "c", "b", some "/a.ts", some "/b.ts", none⟩]

theorem resolve_lookup_shadowing :
    ∃ after r, (resolve shadowing repeatedCalls).runOn storedCall = (.ok r, after) ∧
      (r.resolved, r.duplicates, r.dropped) = (3, 2, 2) ∧
      r.collisions.map (fun c => (c.shadowedId, c.winnerId)) =
        [(idOf 0, idOf 3), (idOf 3, idOf 4)] ∧
      r.relationships.map (fun x => (x.triple, (x.metadata.getD []).map (·.1))) =
        [((idOf 4, idOf 1, .calls), ["first"])] ∧
      Resolution storedCall after shadowing repeatedCalls r := by
  obtain ⟨hexists, hresolution⟩ := resolve_lookup shadowing repeatedCalls storedCall
  have hready : storedCall.tables.Ready := by
    have hnone : ∀ row ∈ Tables.migrated.entityRows, ∃ k, row.id = idOf k := fun _ hrow =>
      absurd hrow List.not_mem_nil
    unfold storedCall
    rw [resolve_runOn _ _ _ Tables.ready_migrated hnone rfl]
    exact Tables.resolved_ready Tables.ready_migrated
  have hids : storedCall.tables.entityRows.map EntityRow.id = [0, 1].map idOf := by
    decide +kernel
  have hissued : ∀ row ∈ storedCall.tables.entityRows, ∃ k, row.id = idOf k := by
    intro row hrow
    have hid : row.id ∈ [0, 1].map idOf := hids ▸ List.mem_map_of_mem hrow
    obtain ⟨k, _, hk⟩ := List.mem_map.mp hid
    exact ⟨k, hk.symm⟩
  have hcounts : ((resolve shadowing repeatedCalls).runOn storedCall).1.toOption.map
      (fun r => (r.resolved, r.duplicates, r.dropped)) = some (3, 2, 2) := by
    decide +kernel
  have hcollisions : ((resolve shadowing repeatedCalls).runOn storedCall).1.toOption.map
      (fun r => r.collisions.map fun c => (c.shadowedId, c.winnerId)) =
        some [(idOf 0, idOf 3), (idOf 3, idOf 4)] := by
    decide +kernel
  have hedges : ((resolve shadowing repeatedCalls).runOn storedCall).1.toOption.map
      (fun r => r.relationships.map fun x => (x.triple, (x.metadata.getD []).map (·.1))) =
        some [((idOf 4, idOf 1, .calls), ["first"])] := by
    decide +kernel
  obtain ⟨r, after, hrun⟩ := hexists hready hissued rfl
  rw [hrun] at hcounts hcollisions hedges
  exact ⟨after, r, hrun, Option.some.inj hcounts, Option.some.inj hcollisions,
    Option.some.inj hedges, hresolution r after hrun⟩

end

end Resolver

end CodeAtlas
