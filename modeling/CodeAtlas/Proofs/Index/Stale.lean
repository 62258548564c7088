import CodeAtlas.Proofs.Index.SyncTwice

/-!
# Stale files

Removing what is stale takes away the files of the ledger that are stale, with their entities and
the edges at these, and touches no other row.

* `StaleRemoved`                   what such a removal did;
* `Indexer.removeLedgered_eq_ok`   any removal of files that the ledger has;
* `Indexer.removeLedgered_again`   a second one finds nothing;
* `Indexer.stale_removal_exact`    `removeStale` and `prune`.
-/

namespace CodeAtlas

open StoreM

/-- what removing the stale files of the ledger did to a store -/
structure StaleRemoved (stale : String → Prop) (db after : Database) (ds : List DeletionRecord) :
    Prop where
  /-- There is one record for each of the files, by path, -/
  files : ∀ path, path ∈ ds.map (·.filePath) ↔ db.tables.Ledgered path ∧ stale path
  ascending : (ds.map (·.filePath)).Pairwise (· < ·)
  /-- with the number of entities that it had. -/
  counts : ∀ d ∈ ds, d.entitiesRemoved = Indexer.entityCount db.tables d.filePath
  fileRecords : ∀ r, r ∈ after.tables.fileRecords ↔
    r ∈ db.tables.fileRecords ∧ ¬ stale r.filePath
  /-- An entity of a file that the ledger does not have stays. -/
  entities : ∀ r, r ∈ after.tables.entityRows ↔
    r ∈ db.tables.entityRows ∧ ¬ (db.tables.Ledgered r.filePath ∧ stale r.filePath)
  edges : ∀ r, r ∈ after.tables.relationshipRows ↔ r ∈ db.tables.relationshipRows ∧
    ¬ ∃ e ∈ db.tables.entityRows, (db.tables.Ledgered e.filePath ∧ stale e.filePath) ∧
      (e.id = r.sourceId ∨ e.id = r.targetId)
  /-- The rows that stay are as they were, in their order, and nothing else changes. -/
  left : after = { db with tables := db.tables.withoutFiles (ds.map (·.filePath)) }

/-- A call removes the stale files: it does so whenever it gives a result, and then again nothing is
stale. -/
structure RemovesStale (x : StoreM (List DeletionRecord)) (stale : String → Prop)
    (db : Database) : Prop where
  succeeds : db.tables.entities.isSome = true → db.tables.files.isSome = true →
    ∃ ds after, x.runOn db = (.ok ds, after)
  exact : ∀ ds after, x.runOn db = (.ok ds, after) →
    StaleRemoved stale db after ds ∧ x.runOn after = (.ok [], after)

theorem Path.isBelow_iff {root : Path} {path : String} : root.isBelow path = true ↔
    Path.isAbsolute path = true ∧ root.components <+: Path.componentsOf path := by
  rw [isBelow, Bool.and_eq_true, List.isPrefixOf_iff_prefix]

namespace Tables

variable {t : Tables} {gone : List String}

theorem mem_withoutFiles_entityRows {r : EntityRow} :
    r ∈ (t.withoutFiles gone).entityRows ↔ r ∈ t.entityRows ∧ r.filePath ∉ gone := by
  rw [withoutFiles_entityRows, List.mem_filter, Bool.not_eq_true', ← Bool.not_eq_true,
    List.contains_iff_mem]

theorem mem_withoutFiles_fileRecords {r : FileRecord} :
    r ∈ (t.withoutFiles gone).fileRecords ↔ r ∈ t.fileRecords ∧ r.filePath ∉ gone := by
  rw [withoutFiles_fileRecords, List.mem_filter, Bool.not_eq_true', ← Bool.not_eq_true,
    List.contains_iff_mem]

theorem mem_withoutFiles_relationshipRows {r : RelationshipRow} :
    r ∈ (t.withoutFiles gone).relationshipRows ↔ r ∈ t.relationshipRows ∧
      ¬ ∃ e ∈ t.entityRows, e.filePath ∈ gone ∧ (e.id = r.sourceId ∨ e.id = r.targetId) := by
  rw [withoutFiles_relationshipRows, List.mem_filter, Bool.and_eq_true, Bool.not_eq_true',
    Bool.not_eq_true', ← Bool.not_eq_true, ← Bool.not_eq_true, List.contains_iff_mem,
    List.contains_iff_mem, mem_idsOf, mem_idsOf, ← not_or]
  simp only [List.contains_iff_mem]
  refine and_congr_right fun _ => not_congr ?_
  constructor
  · rintro (⟨e, he, hgone, hid⟩ | ⟨e, he, hgone, hid⟩)
    · exact ⟨e, he, hgone, .inl hid⟩
    · exact ⟨e, he, hgone, .inr hid⟩
  · rintro ⟨e, he, hgone, hid | hid⟩
    · exact .inl ⟨e, he, hgone, hid⟩
    · exact .inr ⟨e, he, hgone, hid⟩

end Tables

namespace Indexer

variable {db after : Database} {test : String → Bool} {stale : String → Prop}
  {ds : List DeletionRecord}

theorem removeLedgered_eq_ok (htest : ∀ path, test path = true ↔ stale path)
    (hpaths : (db.tables.fileRecords.map (·.filePath)).Nodup)
    (h : (ledgered test >>= removeFiles).runOn db = (.ok ds, after)) :
    StaleRemoved stale db after ds := by
  obtain ⟨paths, mid, hledgered, hremove⟩ := runOn_bind_eq_ok.mp h
  obtain ⟨rfl, hmem, hascending⟩ := ledgered_eq_ok hledgered
  replace hascending := hascending hpaths
  replace hmem : ∀ path, path ∈ paths ↔ mid.tables.Ledgered path ∧ stale path := fun path =>
    (hmem path).trans (and_congr_right fun _ => htest path)
  obtain ⟨rfl, hcounts⟩ := withoutFiles_of_removeFiles hremove
  replace hcounts := hcounts (hascending.imp fun hlt => String.ne_of_lt hlt)
  have hds : ds.map (·.filePath) = paths := by
    rw [hcounts, List.map_map]
    exact List.map_id _
  refine ⟨fun path => hds ▸ hmem path, hds ▸ hascending, ?counts, fun r => ?fileRecords,
    fun r => ?entities, fun r => ?edges, by rw [hds]⟩
  case counts =>
    intro d hd
    rw [hcounts] at hd
    obtain ⟨path, -, rfl⟩ := List.mem_map.mp hd
    rfl
  case fileRecords =>
    rw [Tables.mem_withoutFiles_fileRecords, hmem]
    refine and_congr_right fun hr => not_congr (and_iff_right ?_)
    exact List.mem_map_of_mem hr
  case entities => rw [Tables.mem_withoutFiles_entityRows, hmem]
  case edges => simp only [Tables.mem_withoutFiles_relationshipRows, hmem]

/-- No file of the ledger passes the test any longer. -/
theorem removeLedgered_again (h : (ledgered test >>= removeFiles).runOn db = (.ok ds, after)) :
    (ledgered test >>= removeFiles).runOn after = (.ok [], after) := by
  obtain ⟨paths, mid, hledgered, hremove⟩ := runOn_bind_eq_ok.mp h
  obtain ⟨rfl, hmem, -⟩ := ledgered_eq_ok hledgered
  have hremoved := (removeFiles_eq_ok hremove).1
  obtain ⟨rest, hrest⟩ :=
    exists_ledgered (hremoved.fileTable.trans (isSome_files_of_ledgered hledgered)) test
  obtain ⟨-, hmem', -⟩ := ledgered_eq_ok hrest
  have hnone : rest = [] := by
    rw [List.eq_nil_iff_forall_not_mem]
    intro path hpath
    obtain ⟨hledgered', htest⟩ := (hmem' path).mp hpath
    obtain ⟨hbefore, hnot⟩ := (ledgered_of_removed hremoved).mp hledgered'
    exact hnot ((hmem path).mpr ⟨hbefore, htest⟩)
  rw [runOn_bind_ok hrest, hnone]
  rfl

theorem removesStale_of_test (htest : ∀ path, test path = true ↔ stale path)
    (hpaths : (db.tables.fileRecords.map (·.filePath)).Nodup) :
    RemovesStale (ledgered test >>= removeFiles) stale db where
  succeeds hents hfiles := by
    obtain ⟨paths, hledgered⟩ := exists_ledgered hfiles test
    obtain ⟨ds, hremove, -⟩ := exists_removeFiles hents hfiles paths
    exact ⟨ds, _, (runOn_bind_ok hledgered).trans hremove⟩
  exact _ _ h := ⟨removeLedgered_eq_ok htest hpaths h, removeLedgered_again h⟩

/-- **Stale removal is exact.** In every store, in whose ledger a path stands once, `removeStale`
removes the files of the ledger that are none of the current ones, however these are spelled, and
`prune` those below its root, component by component, that are not discovered there. With a file go
its record, its entities and the edges at these, and nothing else. Again at once, neither finds
anything to remove. -/
theorem stale_removal_exact (db : Database)
    (hpaths : (db.tables.fileRecords.map (·.filePath)).Nodup) :
    (∀ base current, RemovesStale (removeStale base current)
      (fun path => path ∉ current.map base.normalize) db) ∧
    ∀ disk options root, RemovesStale (prune disk options root)
      (fun path => (Path.isAbsolute path = true ∧
        (disk.base.resolve root).components <+: Path.componentsOf path) ∧
        path ∉ (discover disk (disk.base.resolve root) options.exclude).map Path.text) db := by
  refine ⟨fun base current => removesStale_of_test (fun path => ?_) hpaths,
    fun disk options root => removesStale_of_test (fun path => ?_) hpaths⟩
  · rw [Bool.not_eq_true', ← Bool.not_eq_true, List.contains_iff_mem]
  · rw [Bool.and_eq_true, Path.isBelow_iff, Bool.not_eq_true', ← Bool.not_eq_true,
      List.contains_iff_mem]

/-- stores four functions that call each other in a row, and records the files of all but `c` -/
def storingRecords : Script :=
  .andThen (.call (.resolve
    [⟨.function, "a", "/repo/a.ts", 1, 2, "typescript", none⟩,
      ⟨.function, "b", "/repo/b.ts", 1, 2, "typescript", none⟩,
      ⟨.function, "c", "/repo/c.ts", 1, 2, "typescript", none⟩,
      ⟨.function, "x", "/repo-old/x.ts", 1, 2, "typescript", none⟩]
    [⟨.calls, "a", "b", some "/repo/a.ts", some "/repo/b.ts", none⟩,
      ⟨.calls, "b", "c", some "/repo/b.ts", some "/repo/c.ts", none⟩,
      ⟨.calls, "c", "x", some "/repo/c.ts", some "/repo-old/x.ts", none⟩]))
    (.andThen (.call (.recordFile "/repo/a.ts" "1" "typescript"))
      (.andThen (.call (.recordFile "/repo/b.ts" "2" "typescript"))
        (.call (.recordFile "/repo-old/x.ts" "3" "typescript"))))

/-- The file that is current stays, though it is spelled in another way, and so does the one that is
not recorded. On a disk without `/repo/a.ts`, this is all that goes below `/repo`. -/
theorem stale_removal_exact_records : ∃ state ∈ storingRecords.visited (Database.opened true),
    (∃ ds after, (removeStale ⟨["repo"]⟩ ["../lib/.././repo/b.ts"]).runOn state =
        (.ok ds, after) ∧
      (removeStale ⟨["repo"]⟩ ["../lib/.././repo/b.ts"]).runOn after = (.ok [], after) ∧
      ∀ path, path ∈ ds.map (·.filePath) ↔ path = "/repo/a.ts" ∨ path = "/repo-old/x.ts") ∧
    ∃ ds after, (prune (linkSweep.disk spoiltTree) {} "/repo").runOn state = (.ok ds, after) ∧
      (prune (linkSweep.disk spoiltTree) {} "/repo").runOn after = (.ok [], after) ∧
      ∀ path, path ∈ ds.map (·.filePath) ↔ path = "/repo/a.ts" := by
  have hmem := storingRecords.final_mem_visited (Database.opened true)
  have hsound := storingRecords.visited_sound (Database.opened_sound true) _ hmem
  obtain ⟨hstale, hprune⟩ := stale_removal_exact _ hsound.tables.distinctPaths
  have hents :
      (storingRecords.run.runOn (Database.opened true)).2.tables.entities.isSome = true := by
    rw [Database.opened_true]
    decide +kernel
  have hfiles :
      (storingRecords.run.runOn (Database.opened true)).2.tables.files.isSome = true := by
    rw [Database.opened_true]
    decide +kernel
  have hledger : (storingRecords.run.runOn (Database.opened true)).2.tables.fileRecords.map
      (·.filePath) = ["/repo/a.ts", "/repo/b.ts", "/repo-old/x.ts"] := by
    rw [Database.opened_true]
    decide +kernel
  have hroot : (linkSweep.disk spoiltTree).base.resolve "/repo" = ⟨["repo"]⟩ := by decide
  have hfound : (discover (linkSweep.disk spoiltTree) ⟨["repo"]⟩ []).map Path.text =
      ["/repo/b.ts"] := by
    decide +kernel
  have hcurrent : ["../lib/.././repo/b.ts"].map (Path.normalize ⟨["repo"]⟩) = ["/repo/b.ts"] := by
    decide
  refine ⟨_, hmem, ?_, ?_⟩
  · obtain ⟨ds, after, hrun⟩ := (hstale ⟨["repo"]⟩ ["../lib/.././repo/b.ts"]).succeeds hents hfiles
    obtain ⟨hexact, hagain⟩ := (hstale _ _).exact ds after hrun
    refine ⟨ds, after, hrun, hagain, fun path => ?_⟩
    rw [hexact.files, Tables.Ledgered, hledger, hcurrent]
    constructor
    · rintro ⟨hpath, hnot⟩
      simp only [List.mem_cons, List.not_mem_nil, or_false] at hpath hnot
      exact hpath.imp_right fun h => h.resolve_left hnot
    · rintro (rfl | rfl) <;> decide
  · obtain ⟨ds, after, hrun⟩ :=
      (hprune (linkSweep.disk spoiltTree) {} "/repo").succeeds hents hfiles
    obtain ⟨hexact, hagain⟩ := (hprune _ _ _).exact ds after hrun
    refine ⟨ds, after, hrun, hagain, fun path => ?_⟩
    rw [hexact.files, Tables.Ledgered, hledger, hroot, hfound]
    constructor
    · rintro ⟨hpath, ⟨-, hbelow⟩, hnot⟩
      simp only [List.mem_cons, List.not_mem_nil, or_false] at hpath hnot
      rcases hpath with rfl | rfl | rfl
      · rfl
      · exact absurd rfl hnot
      · exact absurd hbelow (by decide)
    · rintro rfl
      decide

end Indexer

end CodeAtlas
