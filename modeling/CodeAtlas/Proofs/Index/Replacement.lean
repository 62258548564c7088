import CodeAtlas.Proofs.Index.Content
import CodeAtlas.Proofs.Index.Resolution
import CodeAtlas.Proofs.Store.Reading

/-!
# What replacing and removing a file do

Removing a file succeeds where the tables are there, and replacing it where they also turn nothing
away. What the file had in the graph goes, with every edge at it; then, if it is replaced, a batch of
the resolver comes in its place.

* `Sound.without_hasEdge`    the edges that stay when entities go;
* `Tables.withoutFile`       the graph without the entities of a file;
* `Indexer.replace_runOn`    replacing a file, as one change of the tables;
* `Indexer.removeFile_runOn` removing a file, likewise.
-/

namespace CodeAtlas

namespace Tables

variable {t : Tables} {n : Nat}

/-! ### The graph without some entities -/

variable {doomed : EntityRow → Bool}

theorem without_ready (doomed : EntityRow → Bool) (h : t.Ready) : (t.without doomed).Ready := by
  refine ⟨?_, ?_, h.files⟩
  · rw [without_entityRows, without, dropEdges, h.entities]
    rfl
  · rw [without_relationshipRows, without, dropEdges]
    dsimp only
    rw [h.relationships]
    rfl

/-- An id belongs to one row only, so it either goes or stays. -/
theorem Sound.mem_idsOf_iff (h : t.Sound n) {id : String}
    (hid : id ∈ t.entityRows.map EntityRow.id) :
    id ∈ t.idsOf doomed ↔ id ∉ (t.without doomed).entityRows.map EntityRow.id := by
  obtain ⟨r, hr, rfl⟩ := List.mem_map.mp hid
  have hstays : r.id ∈ (t.without doomed).entityRows.map EntityRow.id ↔ doomed r = false := by
    rw [without_entityRows, List.mem_map]
    constructor
    · rintro ⟨r', hr', heq⟩
      obtain ⟨hr', hkept⟩ := List.mem_filter.mp hr'
      rw [List.inj_on_of_nodup_map h.distinctIds hr' hr heq, Bool.not_eq_true'] at hkept
      exact hkept
    · exact fun h => ⟨r, List.mem_filter.mpr ⟨hr, by rw [h]; rfl⟩, rfl⟩
  rw [hstays, ← List.contains_iff_mem, h.contains_idsOf doomed hr, Bool.not_eq_false]

/-- The edges that stay are those between entities that stay. -/
theorem Sound.without_hasEdge (h : t.Sound n) {source target kind : String} :
    (t.without doomed).HasEdge source target kind ↔
      t.HasEdge source target kind ∧
        source ∈ (t.without doomed).entityRows.map EntityRow.id ∧
        target ∈ (t.without doomed).entityRows.map EntityRow.id := by
  have hstays : ∀ r ∈ t.relationshipRows,
      (r ∈ (t.without doomed).relationshipRows ↔
        r.sourceId ∈ (t.without doomed).entityRows.map EntityRow.id ∧
        r.targetId ∈ (t.without doomed).entityRows.map EntityRow.id) := by
    intro r hr
    obtain ⟨hs, ht⟩ := h.ends r hr
    rw [without_relationshipRows, List.mem_filter, and_iff_right hr, Bool.and_eq_true,
      Bool.not_eq_true', Bool.not_eq_true', ← Bool.not_eq_true, ← Bool.not_eq_true,
      List.contains_iff_mem, List.contains_iff_mem, h.mem_idsOf_iff hs, h.mem_idsOf_iff ht,
      not_not, not_not]
  constructor
  · rintro ⟨r, hkeep, rfl, rfl, rfl⟩
    have hr : r ∈ t.relationshipRows := by
      rw [without_relationshipRows] at hkeep
      exact (List.mem_filter.mp hkeep).1
    exact ⟨⟨r, hr, rfl, rfl, rfl⟩, (hstays r hr).mp hkeep⟩
  · rintro ⟨⟨r, hr, rfl, rfl, rfl⟩, hends⟩
    exact ⟨r, (hstays r hr).mpr hends, rfl, rfl, rfl⟩

/-- the graph when the entities of a file are gone -/
def withoutFile (filePath : String) (t : Tables) : Tables := t.without (·.filePath == filePath)

theorem withoutFile_entityRows (filePath : String) (t : Tables) :
    (t.withoutFile filePath).entityRows = t.entityRows.filter (·.filePath != filePath) :=
  without_entityRows _ t

/-- Where a file has no entities, there is nothing to take away. -/
theorem withoutFile_of_forall_ne {filePath : String}
    (h : ∀ r ∈ t.entityRows, r.filePath ≠ filePath) : t.withoutFile filePath = t :=
  without_of_forall fun r hr => beq_eq_false_iff_ne.mpr (h r hr)

/-! ### A batch of the resolver -/

open Resolver

variable {es : List NewEntity} {rs : List ExtractedRelationship}

theorem resolved_ready (h : t.Ready) : (resolved n es rs t).Ready := ⟨rfl, rfl, h.files⟩

theorem resolved_entityRows : (resolved n es rs t).entityRows = t.entityRows ++ newRows n es := rfl

theorem exists_mem_numbered {news : List NewRelationship} {source target kind : String} :
    (∃ r ∈ Relationships.numbered n news,
        r.sourceId = source ∧ r.targetId = target ∧ r.kind.name = kind) ↔
      ∃ new ∈ news, new.sourceId = source ∧ new.targetId = target ∧ new.kind.name = kind := by
  induction news generalizing n with
  | nil =>
    exact ⟨fun ⟨_, h, _⟩ => absurd h List.not_mem_nil, fun ⟨_, h, _⟩ => absurd h List.not_mem_nil⟩
  | cons new news ih =>
    rw [Relationships.numbered, List.exists_mem_cons_iff, List.exists_mem_cons_iff, ih]

/-- A batch adds the edges whose ends are found, in what is stored after its entities are. -/
theorem resolved_hasEdge {source target kind : String} :
    (resolved n es rs t).HasEdge source target kind ↔
      t.HasEdge source target kind ∨
      ∃ r ∈ rs, r.kind.name = kind ∧
        (EntityCache.ofRows (t.entityRows ++ newRows n es)).lookup r.sourceFilePath r.sourceName =
          some source ∧
        (EntityCache.ofRows (t.entityRows ++ newRows n es)).lookup r.targetFilePath r.targetName =
          some target := by
  show (∃ r ∈ t.relationshipRows ++ (Relationships.fresh _ _).map _, _) ↔ _
  rw [Relationships.fresh_hasEdge, asked, exists_mem_numbered, exists_mem_filterMap_bind?]
  rfl

/-! ### The ledger -/

/-- the tables after a path was recorded -/
def recorded (filePath contentHash language : String) (t : Tables) : Tables :=
  { t with files := t.files.map fun table =>
      { table with
        rows := refreshed filePath contentHash language table
        lastId := table.lastId + 1 } }

theorem recorded_ready (filePath contentHash language : String) (h : t.Ready) :
    (t.recorded filePath contentHash language).Ready := by
  obtain ⟨lastId, hfiles⟩ := h.files
  refine ⟨h.entities, h.relationships, lastId + 1, ?_⟩
  rw [recorded, fileRecords, hfiles]
  rfl

theorem recorded_entries (filePath contentHash language : String) (h : t.Ready)
    (hnodup : (t.fileRecords.map (·.filePath)).Nodup) :
    ((t.recorded filePath contentHash language).fileRecords.map FileRecord.entry).Perm
      ((t.fileRecords.filter (·.filePath != filePath)).map FileRecord.entry ++
        [(filePath, contentHash, language)]) := by
  obtain ⟨lastId, hfiles⟩ := h.files
  have hrows : (t.recorded filePath contentHash language).fileRecords =
      refreshed filePath contentHash language ⟨⟨t.fileRecords, []⟩, lastId⟩ := by
    rw [recorded, fileRecords, hfiles]
    rfl
  rw [hrows]
  exact refreshed_entries filePath contentHash language hnodup

theorem unrecorded_ready (gone : String → Bool) (h : t.Ready) : (t.unrecorded gone).Ready := by
  obtain ⟨lastId, hfiles⟩ := h.files
  refine ⟨h.entities, h.relationships, lastId, ?_⟩
  rw [unrecorded_fileRecords, unrecorded, hfiles]
  rfl

end Tables

open StoreM

/-! ### Runs -/

variable (db : Database)

theorem Entities.deleteByFile_runOn (filePath : String) (h : db.tables.entities.isSome = true) :
    (deleteByFile filePath).runOn db =
      (.ok (db.tables.rowsIn filePath).length,
        { db with tables := db.tables.withoutFile filePath }) :=
  deleteWhere_eq_ok.mpr ⟨h, rfl, rfl⟩

namespace FileLedger

theorem find?_of_ready {t : Tables} (filePath : String) (h : t.Ready) :
    find? filePath t = .ok (t.fileRecords.find? (·.filePath == filePath)) := by
  obtain ⟨lastId, hfiles⟩ := h.files
  exact find?_eq_ok.mpr ⟨by rw [hfiles]; rfl, rfl⟩

theorem upsert_runOn_of_ready (filePath contentHash language : String) (h : db.tables.Ready) :
    ∃ record, (upsert filePath contentHash language).runOn db =
      (.ok record, { db with tables := db.tables.recorded filePath contentHash language }) := by
  obtain ⟨lastId, hfiles⟩ := h.files
  have hup : db.tables.upsertFile filePath contentHash language =
      .ok (db.tables.recorded filePath contentHash language) := by
    refine Tables.upsertFile_eq_ok.mpr ⟨_, hfiles, List.not_mem_nil, ?_⟩
    rw [Tables.recorded, hfiles]
    rfl
  obtain ⟨record, hrecord⟩ := find?_of_upsertFile hup
  exact ⟨record, by rw [upsert_runOn, hup]; dsimp only; rw [hrecord]⟩

end FileLedger

namespace Indexer

/-- Replacing a file: its entities go, those of its new content come, and its record is written. -/
theorem replaceBody_runOn (filePath hash language : String) (known : Bool) (x : Extraction)
    (hready : db.tables.Ready) (hsound : db.tables.Sound db.idsUsed)
    (hvalid : x.entities.forM NewEntity.validate = .ok ())
    (hknown : known = false → ∀ r ∈ db.tables.entityRows, r.filePath ≠ filePath) :
    ∃ used,
      (replaceBody filePath hash language known x).runOn db =
        (.ok (Resolver.report (db.tables.withoutFile filePath) db.idsUsed x.entities
            x.relationships),
          { db with
            tables := (Resolver.resolved db.idsUsed x.entities x.relationships
              (db.tables.withoutFile filePath)).recorded filePath hash language
            idsUsed := used }) := by
  have hclean : (db.tables.withoutFile filePath).Ready := Tables.without_ready _ hready
  have hissued : ∀ r ∈ (db.tables.withoutFile filePath).entityRows, ∃ k, r.id = idOf k := by
    intro r hr
    obtain ⟨k, _, hk⟩ := (hsound.without (·.filePath == filePath)).issuedId r hr
    exact ⟨k, hk⟩
  obtain ⟨used, hresolve⟩ : ∃ used,
      (Resolver.resolve x.entities x.relationships).runOn
        { db with tables := db.tables.withoutFile filePath } =
      (.ok (Resolver.report (db.tables.withoutFile filePath) db.idsUsed x.entities
          x.relationships),
        { db with
          tables := Resolver.resolved db.idsUsed x.entities x.relationships
            (db.tables.withoutFile filePath)
          idsUsed := used }) :=
    ⟨_, Resolver.resolve_runOn x.entities x.relationships _ hclean hissued hvalid⟩
  obtain ⟨record, hrecord⟩ := FileLedger.upsert_runOn_of_ready
    { db with
      tables := Resolver.resolved db.idsUsed x.entities x.relationships
        (db.tables.withoutFile filePath)
      idsUsed := used }
    filePath hash language (Tables.resolved_ready hclean)
  refine ⟨used, replaceBody_runOn_of_steps ?_ hresolve hrecord⟩
  cases known with
  | true => exact ⟨_, Entities.deleteByFile_runOn db filePath hready.entities_isSome⟩
  | false =>
    show { db with tables := db.tables.withoutFile filePath } = db
    rw [Tables.withoutFile_of_forall_ne (hknown rfl)]

theorem replace_runOn (filePath hash language : String) (known : Bool) (x : Extraction)
    (hready : db.tables.Ready) (hsound : db.tables.Sound db.idsUsed)
    (hvalid : x.entities.forM NewEntity.validate = .ok ())
    (hknown : known = false → ∀ r ∈ db.tables.entityRows, r.filePath ≠ filePath) :
    ∃ used,
      (replace filePath hash language known x).runOn db =
        (.ok (Resolver.report (db.tables.withoutFile filePath) db.idsUsed x.entities
            x.relationships),
          { db with
            tables := (Resolver.resolved db.idsUsed x.entities x.relationships
              (db.tables.withoutFile filePath)).recorded filePath hash language
            idsUsed := used }) := by
  have htables := db.entered_tables
  have hids := db.entered_idsUsed
  obtain ⟨used, hbody⟩ := replaceBody_runOn db.entered filePath hash language known x
    (htables ▸ hready) (htables ▸ hids ▸ hsound) hvalid (htables ▸ hknown)
  refine ⟨used, ?_⟩
  rw [replace_eq, runOn_mapError, (replaceBody_balanced _ _ _ _ _).runOn_transaction, hbody,
    htables, hids]
  rfl

/-- Removing a file: its entities and its record go. -/
theorem removeFile_runOn (filePath : String) (hents : db.tables.entities.isSome = true)
    (hfiles : db.tables.files.isSome = true) :
    (removeFile filePath).runOn db =
      (.ok ⟨filePath, (db.tables.rowsIn filePath).length⟩,
        { db with tables := (db.tables.withoutFile filePath).unrecorded (· == filePath) }) := by
  have hdelete : (FileLedger.delete filePath).runOn
      { db with tables := db.tables.withoutFile filePath } = _ :=
    FileLedger.delete_eq_ok.mpr ⟨hfiles, rfl, rfl⟩
  rw [removeFile, runOn_bind_ok (Entities.deleteByFile_runOn db filePath hents),
    runOn_bind_ok (runOn_discard_ok hdelete)]
  rfl

end Indexer

end CodeAtlas
