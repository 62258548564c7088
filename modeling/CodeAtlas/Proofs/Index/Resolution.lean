import CodeAtlas.Proofs.Store.Batches

/-!
# What resolving a batch does

The cache of the resolver finds the last stored row of a name in a file, and a batch of the resolver
appends its entities and then the edges whose ends are found.

* `EntityCache.lookup_ofRows`   the cache in terms of rows;
* `Resolver.resolve_runOn`      a batch of valid entities succeeds, with exactly these effects.
-/

namespace CodeAtlas

/-- the last row of a name in a file -/
def EntityRow.named (rows : List EntityRow) (filePath name : String) : Option EntityRow :=
  (rows.filter fun r => r.filePath == filePath && r.name == name).getLast?

theorem EntityRow.named_mem {rows : List EntityRow} {filePath name : String} {r : EntityRow}
    (h : named rows filePath name = some r) :
    r ∈ rows ∧ r.filePath = filePath ∧ r.name = name := by
  have hr := List.mem_of_getLast? h
  simpa using hr

namespace EntityCache

theorem entries_foldl (rows : List EntityRow) (c : EntityCache) :
    (rows.foldl (fun c r => (c.insert r.filePath r.name r.id).2) c).entries =
      (rows.map fun r => ((r.filePath, r.name), r.id)).reverse ++ c.entries := by
  induction rows generalizing c with
  | nil => rfl
  | cons r rows ih =>
    rw [List.foldl_cons, ih, List.map_cons, List.reverse_cons, List.append_assoc]
    rfl

/-- looking a key up in rows -/
theorem lookup_map (rows : List EntityRow) (filePath name : String) :
    (rows.map fun r => ((r.filePath, r.name), r.id)).lookup (filePath, name) =
      (rows.find? fun r => r.filePath == filePath && r.name == name).map EntityRow.id := by
  induction rows with
  | nil => rfl
  | cons r rows ih =>
    rw [List.map_cons, List.lookup_cons, List.find?_cons, ih]
    have hkey : ((filePath, name) == (r.filePath, r.name)) =
        (r.filePath == filePath && r.name == name) := by
      rw [Bool.eq_iff_iff, beq_iff_eq, Bool.and_eq_true, beq_iff_eq, beq_iff_eq, Prod.mk.injEq]
      exact and_congr eq_comm eq_comm
    rw [hkey]
    cases r.filePath == filePath && r.name == name <;> rfl

/-- A name is looked up in the last row that has it. -/
theorem lookup_ofRows (rows : List EntityRow) (filePath name : String) :
    (ofRows rows).lookup (some filePath) name =
      (EntityRow.named rows filePath name).map EntityRow.id := by
  show (ofRows rows).entries.lookup (filePath, name) = _
  rw [ofRows, entries_foldl, List.append_nil, ← List.map_reverse, lookup_map, EntityRow.named,
    List.getLast?_eq_head?_reverse, ← List.filter_reverse, List.head?_filter]

/-- What is found is stored. -/
theorem mem_of_lookup {rows : List EntityRow} {filePath : Option String} {name id : String}
    (h : (ofRows rows).lookup filePath name = some id) : id ∈ rows.map EntityRow.id := by
  cases filePath with
  | none => cases h
  | some filePath =>
    rw [lookup_ofRows, Option.map_eq_some_iff] at h
    obtain ⟨r, hr, rfl⟩ := h
    exact List.mem_map_of_mem (EntityRow.named_mem hr).1

theorem load_eq {t : Tables} {table : Table EntityRow} (h : t.entities = some table) :
    load t = .ok (ofRows table.rows) := by
  rw [load, Entities.rows, Tables.entityTable_eq_ok.mpr h]
  rfl

end EntityCache

namespace Resolver

open StoreM

theorem cacheAll_fst (c : EntityCache) (es : List Entity) :
    (cacheAll c es).1 =
      (es.map EntityRow.ofEntity).foldl (fun c r => (c.insert r.filePath r.name r.id).2) c := by
  induction es generalizing c with
  | nil => rfl
  | cons e es ih =>
    rw [List.map_cons, List.foldl_cons, ← ih, cacheAll]
    dsimp only
    cases (c.insert e.filePath e.name e.id).1 <;> rfl

/-- the rows of the entities of a batch, under the next ids -/
def newRows (n : Nat) (es : List NewEntity) : List EntityRow :=
  (Entities.numbered n es).map .ofEntity

/-- The cache of stored rows and a batch is the cache of the rows after the batch. -/
theorem cacheAll_numbered (rows : List EntityRow) (n : Nat) (es : List NewEntity) :
    (cacheAll (.ofRows rows) (Entities.numbered n es)).1 = .ofRows (rows ++ newRows n es) := by
  rw [cacheAll_fst, EntityCache.ofRows, EntityCache.ofRows, List.foldl_append]
  rfl

theorem bind?_eq_some {c : EntityCache} {r : ExtractedRelationship} {new : NewRelationship} :
    bind? c r = some new ↔
      ∃ sourceId targetId, c.lookup r.sourceFilePath r.sourceName = some sourceId ∧
        c.lookup r.targetFilePath r.targetName = some targetId ∧
        new = ⟨sourceId, targetId, r.kind, r.metadata⟩ := by
  unfold bind?
  cases c.lookup r.sourceFilePath r.sourceName with
  | none => simp
  | some sourceId =>
    cases c.lookup r.targetFilePath r.targetName with
    | none => simp
    | some targetId => simp [eq_comm]

/-- the edges that a batch means -/
theorem exists_mem_filterMap_bind? {c : EntityCache} {rs : List ExtractedRelationship}
    {source target kind : String} :
    (∃ new ∈ rs.filterMap (bind? c),
        new.sourceId = source ∧ new.targetId = target ∧ new.kind.name = kind) ↔
      ∃ r ∈ rs, r.kind.name = kind ∧ c.lookup r.sourceFilePath r.sourceName = some source ∧
        c.lookup r.targetFilePath r.targetName = some target := by
  constructor
  · rintro ⟨new, hnew, rfl, rfl, rfl⟩
    obtain ⟨r, hr, hbind⟩ := List.mem_filterMap.mp hnew
    obtain ⟨sourceId, targetId, hs, ht, rfl⟩ := bind?_eq_some.mp hbind
    exact ⟨r, hr, rfl, hs, ht⟩
  · rintro ⟨r, hr, rfl, hs, ht⟩
    exact ⟨_, List.mem_filterMap.mpr ⟨r, hr, bind?_eq_some.mpr ⟨_, _, hs, ht, rfl⟩⟩, rfl, rfl, rfl⟩

/-- the edges that a batch asks for, under the ids after those of its entities -/
def asked (rows : List EntityRow) (n : Nat) (rs : List ExtractedRelationship) : List Relationship :=
  Relationships.numbered n (rs.filterMap (bind? (.ofRows rows)))

/-- what a batch reports, given the tables and the next id before it -/
def report (t : Tables) (n : Nat) (es : List NewEntity) (rs : List ExtractedRelationship) :
    ResolutionReport :=
  let rows := t.entityRows ++ newRows n es
  let edges := rs.filterMap (bind? (.ofRows rows))
  let created := Relationships.fresh t.relationshipRows (asked rows (n + es.length) rs)
  { entities := Entities.numbered n es
    relationships := created
    resolved := edges.length
    duplicates := edges.length - created.length
    dropped := rs.length - edges.length
    collisions := (cacheAll (.ofRows t.entityRows) (Entities.numbered n es)).2 }

/-- what a batch leaves, given the next id before it -/
def resolved (n : Nat) (es : List NewEntity) (rs : List ExtractedRelationship) (t : Tables) :
    Tables :=
  let rows := t.entityRows ++ newRows n es
  { t with
    entities := some ⟨rows, []⟩
    relationships := some ⟨t.relationshipRows ++
      (Relationships.fresh t.relationshipRows (asked rows (n + es.length) rs)).map
        .ofRelationship, []⟩ }

/-- an edge that is asked for joins ids of rows -/
theorem ends_of_mem_filterMap_bind? {rows : List EntityRow} {rs : List ExtractedRelationship}
    {new : NewRelationship} (h : new ∈ rs.filterMap (bind? (.ofRows rows))) :
    new.sourceId ∈ rows.map EntityRow.id ∧ new.targetId ∈ rows.map EntityRow.id := by
  obtain ⟨r, _, hbind⟩ := List.mem_filterMap.mp h
  obtain ⟨sourceId, targetId, hs, ht, rfl⟩ := bind?_eq_some.mp hbind
  exact ⟨EntityCache.mem_of_lookup hs, EntityCache.mem_of_lookup ht⟩

theorem resolveWithin_runOn {es : List NewEntity} {rs : List ExtractedRelationship} {db : Database}
    (hready : db.tables.Ready) (hissued : ∀ r ∈ db.tables.entityRows, ∃ k, r.id = idOf k)
    (hvalid : es.forM NewEntity.validate = .ok ()) :
    (resolveWithin es rs).runOn db =
      (.ok (report db.tables db.idsUsed es rs),
        { db with
          tables := resolved db.idsUsed es rs db.tables
          idsUsed := db.idsUsed + es.length +
            (rs.filterMap (bind? (.ofRows (db.tables.entityRows ++ newRows db.idsUsed es)))).length
          }) := by
  have hcache : (query EntityCache.load).runOn db = (.ok (.ofRows db.tables.entityRows), db) :=
    runOn_query_ok (EntityCache.load_eq hready.entities)
  have hnonempty : ∀ id ∈ (db.tables.entityRows ++ newRows db.idsUsed es).map EntityRow.id,
      id ≠ "" := by
    intro id hid
    obtain ⟨r, hr, rfl⟩ := List.mem_map.mp hid
    rcases List.mem_append.mp hr with hr | hr
    · obtain ⟨k, hk⟩ := hissued r hr
      exact hk ▸ idOf_ne_empty k
    · obtain ⟨e, he, rfl⟩ := List.mem_map.mp hr
      obtain ⟨k, -, hk⟩ := Entities.numbered_id he
      exact fun h => idOf_ne_empty k (hk ▸ h)
  have hedges := Relationships.createBatch_runOn
    (rs.filterMap (bind? (.ofRows (db.tables.entityRows ++ newRows db.idsUsed es))))
    { db with
      tables := { db.tables with
        entities := some ⟨db.tables.entityRows ++ newRows db.idsUsed es, []⟩ }
      idsUsed := db.idsUsed + es.length }
    hready.relationships rfl
    (fun r hr =>
      ⟨hnonempty _ (ends_of_mem_filterMap_bind? hr).1,
        hnonempty _ (ends_of_mem_filterMap_bind? hr).2⟩)
    (fun r hr =>
      ⟨Tables.hasEntity_iff_mem.mpr (ends_of_mem_filterMap_bind? hr).1,
        Tables.hasEntity_iff_mem.mpr (ends_of_mem_filterMap_bind? hr).2⟩)
  rw [resolveWithin, runOn_bind_ok hcache,
    runOn_bind_ok (Entities.createBatch_runOn hvalid hready.entities)]
  dsimp only
  rw [cacheAll_numbered, ← newRows, runOn_bind_ok hedges]
  rfl

/-- A batch of valid entities succeeds, and this is what it reports and what it leaves. -/
theorem resolve_runOn (es : List NewEntity) (rs : List ExtractedRelationship) (db : Database)
    (hready : db.tables.Ready) (hissued : ∀ r ∈ db.tables.entityRows, ∃ k, r.id = idOf k)
    (hvalid : es.forM NewEntity.validate = .ok ()) :
    (resolve es rs).runOn db =
      (.ok (report db.tables db.idsUsed es rs),
        { db with
          tables := resolved db.idsUsed es rs db.tables
          idsUsed := db.idsUsed + es.length +
            (rs.filterMap (bind? (.ofRows (db.tables.entityRows ++ newRows db.idsUsed es)))).length
          }) := by
  have htables := db.entered_tables
  rw [resolve, runOn_mapError, (resolveWithin_balanced es rs).runOn_transaction,
    resolveWithin_runOn (htables ▸ hready) (htables ▸ hissued) hvalid]
  simp only [Database.entered_tables, Database.entered_idsUsed]
  rfl

end Resolver

end CodeAtlas
