import CodeAtlas.Proofs.Index.Frames

/-!
# Removing files

What is left when files are removed: their entities go, every edge at one of these goes, and their
records go. One file after another, or all of them in one block, is the same.

* `Tables.withoutFiles`                   the tables when files are gone;
* `Tables.withoutFiles_append`            some files first and others afterwards;
* `Indexer.exists_removeFiles`            files can be removed, as one change of the tables;
* `Indexer.withoutFiles_of_removeFiles`   what a removal did that succeeded.
-/

namespace CodeAtlas

open StoreM

namespace Tables

variable {t : Tables} {gone more : List String} {filePath : String}

/-! ### Tables without some files -/

/-- the tables without the entities of some files, without every edge at one of these, and without
the records of the files -/
def withoutFiles (gone : List String) (t : Tables) : Tables :=
  (t.without fun r => gone.contains r.filePath).unrecorded gone.contains

@[simp] theorem withoutFiles_entityRows (gone : List String) (t : Tables) :
    (t.withoutFiles gone).entityRows =
      t.entityRows.filter fun r => !gone.contains r.filePath :=
  t.without_entityRows _

@[simp] theorem withoutFiles_relationshipRows (gone : List String) (t : Tables) :
    (t.withoutFiles gone).relationshipRows = t.relationshipRows.filter fun r =>
      !(t.idsOf fun r => gone.contains r.filePath).contains r.sourceId &&
        !(t.idsOf fun r => gone.contains r.filePath).contains r.targetId :=
  t.without_relationshipRows _

@[simp] theorem withoutFiles_fileRecords (gone : List String) (t : Tables) :
    (t.withoutFiles gone).fileRecords =
      t.fileRecords.filter fun r => !gone.contains r.filePath :=
  unrecorded_fileRecords _ _

theorem withoutFiles_entities_isSome (gone : List String) (t : Tables) :
    (t.withoutFiles gone).entities.isSome = t.entities.isSome :=
  t.without_entities_isSome _

theorem withoutFiles_files_isSome (gone : List String) (t : Tables) :
    (t.withoutFiles gone).files.isSome = t.files.isSome :=
  unrecorded_files_isSome _ _

theorem withoutFiles_nil (t : Tables) : t.withoutFiles [] = t := by
  have hnone : (t.without fun r => List.contains [] r.filePath) = t :=
    without_of_forall fun _ _ => rfl
  rw [withoutFiles, hnone]
  exact unrecorded_none t

theorem withoutFiles_append (gone more : List String) (t : Tables) :
    t.withoutFiles (gone ++ more) = (t.withoutFiles gone).withoutFiles more := by
  have hpath : (fun path => (gone ++ more).contains path) =
      fun path => gone.contains path || more.contains path :=
    funext fun path => List.contains_append
  have hrow : (fun r : EntityRow => (gone ++ more).contains r.filePath) =
      fun r => gone.contains r.filePath || more.contains r.filePath :=
    funext fun r => List.contains_append
  rw [withoutFiles, withoutFiles, withoutFiles, hrow, ← without_without, unrecorded_without,
    unrecorded_unrecorded]
  exact congrArg (unrecorded · _) hpath

/-- One file goes by a statement on its entities and one on its record. -/
theorem withoutFiles_singleton (filePath : String) (t : Tables) :
    t.withoutFiles [filePath] = (t.withoutFile filePath).unrecorded (· == filePath) := by
  rw [withoutFiles, contains_one]
  rfl

end Tables

namespace Indexer

variable {db after : Database} {filePath : String} {paths : List String}
  {ds : List DeletionRecord}

/-- how many entities a file has -/
def entityCount (t : Tables) (filePath : String) : Nat :=
  (t.rowsIn filePath).length

theorem entityCount_withoutFiles {gone : List String} {t : Tables} (h : filePath ∉ gone) :
    entityCount (t.withoutFiles gone) filePath = entityCount t filePath := by
  rw [entityCount, Tables.rowsIn, Tables.withoutFiles_entityRows, List.filter_filter, entityCount]
  refine congrArg List.length (List.filter_congr fun r _ => ?_)
  by_cases hpath : r.filePath = filePath
  · simp [hpath, h]
  · simp [hpath]

/-! ### Runs -/

theorem isSome_of_removeFile {d : DeletionRecord}
    (h : (removeFile filePath).runOn db = (.ok d, after)) :
    db.tables.entities.isSome = true ∧ db.tables.files.isSome = true := by
  obtain ⟨n, mid, hdelete, h⟩ := runOn_bind_eq_ok.mp h
  obtain ⟨_, last, hforget, -⟩ := runOn_bind_eq_ok.mp h
  obtain ⟨there, hforget⟩ := runOn_discard_eq_ok hforget
  obtain ⟨hents, -, rfl⟩ := Entities.deleteWhere_eq_ok.mp hdelete
  obtain ⟨hfiles, -⟩ := FileLedger.delete_eq_ok.mp hforget
  exact ⟨hents, hfiles⟩

/-- Files are removed one after another. If the paths are distinct, each of the files still has all
of its entities when its turn comes. -/
theorem exists_mapM_removeFile (hents : db.tables.entities.isSome = true)
    (hfiles : db.tables.files.isSome = true) (paths : List String) :
    ∃ ds, (paths.mapM removeFile).runOn db =
        (.ok ds, { db with tables := db.tables.withoutFiles paths }) ∧
      (paths.Nodup → ds = paths.map fun path => ⟨path, entityCount db.tables path⟩) := by
  induction paths generalizing db with
  | nil =>
    refine ⟨[], ?_, fun _ => rfl⟩
    rw [List.mapM_nil, runOn_pure, Tables.withoutFiles_nil]
  | cons path paths ih =>
    have hfirst := removeFile_runOn db path hents hfiles
    rw [← Tables.withoutFiles_singleton] at hfirst
    obtain ⟨rest, hrest, hcounts⟩ := @ih { db with tables := db.tables.withoutFiles [path] }
      ((Tables.withoutFiles_entities_isSome _ _).trans hents)
      ((Tables.withoutFiles_files_isSome _ _).trans hfiles)
    refine ⟨⟨path, entityCount db.tables path⟩ :: rest, ?_, fun hdistinct => ?_⟩
    · rw [runOn_mapM_cons_ok hfirst hrest, ← Tables.withoutFiles_append]
      rfl
    · rw [List.nodup_cons] at hdistinct
      rw [List.map_cons, hcounts hdistinct.2]
      refine congrArg (_ :: ·) (List.map_congr_left fun other hother => ?_)
      have hne : other ∉ [path] := by
        rw [List.mem_singleton]
        rintro rfl
        exact hdistinct.1 hother
      rw [entityCount_withoutFiles hne]

theorem exists_removeFiles (hents : db.tables.entities.isSome = true)
    (hfiles : db.tables.files.isSome = true) (paths : List String) :
    ∃ ds, (removeFiles paths).runOn db =
        (.ok ds, { db with tables := db.tables.withoutFiles paths }) ∧
      (paths.Nodup → ds = paths.map fun path => ⟨path, entityCount db.tables path⟩) := by
  cases paths with
  | nil =>
    rw [Tables.withoutFiles_nil]
    exact ⟨[], rfl, fun _ => rfl⟩
  | cons path paths =>
    have htables := db.entered_tables
    obtain ⟨ds, hbody, hcounts⟩ :=
      @exists_mapM_removeFile db.entered (htables ▸ hents) (htables ▸ hfiles) (path :: paths)
    have hblock := (StoreM.Balanced.mapM removeFile_balanced (path :: paths)).runOn_transaction db
    rw [hbody, htables, db.entered_idsUsed] at hblock
    rw [htables] at hcounts
    refine ⟨ds, ?_, hcounts⟩
    show (mapError _ (transaction ((path :: paths).mapM removeFile))).runOn db = _
    rw [runOn_mapError, hblock]
    rfl

/-- A removal that succeeds leaves the tables without the files, and counts the entities of each. -/
theorem withoutFiles_of_removeFiles (h : (removeFiles paths).runOn db = (.ok ds, after)) :
    after = { db with tables := db.tables.withoutFiles paths } ∧
      (paths.Nodup → ds = paths.map fun path => ⟨path, entityCount db.tables path⟩) := by
  cases paths with
  | nil =>
    cases h
    rw [Tables.withoutFiles_nil]
    exact ⟨rfl, fun _ => rfl⟩
  | cons path paths =>
    obtain ⟨mid, hbody, -⟩ := runOn_transaction_eq_ok (.mapM removeFile_balanced _) h
    obtain ⟨d, _, _, hfirst, -⟩ := runOn_mapM_cons_eq_ok hbody
    obtain ⟨hents, hfiles⟩ := isSome_of_removeFile hfirst
    rw [db.entered_tables] at hents hfiles
    obtain ⟨ds', hrun, hcounts⟩ := exists_removeFiles hents hfiles (path :: paths)
    rw [hrun] at h
    cases h
    exact ⟨rfl, hcounts⟩

end Indexer

end CodeAtlas
