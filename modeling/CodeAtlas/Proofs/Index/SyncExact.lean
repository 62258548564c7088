import CodeAtlas.Proofs.Index.Removal
import CodeAtlas.Proofs.Index.Rebuild

/-!
# What a sweep does, file by file

A sweep that does not fail gives one outcome for each file that it finds, and removes exactly the
files of the ledger below its directory that it did not find. It keeps apart what happens to each
file: one that is an error stays as it was, and so does whatever lies elsewhere.

* `Removed`, `Indexer.removeFiles_eq_ok`   what removing files did;
* `Indexer.ledgered_eq_ok`                 the paths of the ledger, in their order;
* `SyncExact`                              what a sweep did, by the tables before and after it;
* `Indexer.sync_exact`                     every sweep that does not fail did this.
-/

namespace CodeAtlas

open StoreM

/-! ### Removing files -/

theorem not_contains {paths : List String} {path : String} (h : path ∉ paths) :
    (!paths.contains path) = true := by
  rw [Bool.not_eq_true', ← Bool.not_eq_true, List.contains_iff_mem]
  exact h

/-- what removing files did to the tables -/
structure Removed (gone : List String) (t t' : Tables) : Prop where
  entityTable : t'.entities.isSome = t.entities.isSome
  fileTable : t'.files.isSome = t.files.isSome
  entityRows : t'.entityRows = t.entityRows.filter fun r => !gone.contains r.filePath
  fileRecords : t'.fileRecords = t.fileRecords.filter fun r => !gone.contains r.filePath

namespace Removed

variable {gone : List String} {t t' : Tables}

theorem withoutFiles (gone : List String) (t : Tables) : Removed gone t (t.withoutFiles gone) :=
  ⟨t.withoutFiles_entities_isSome gone, t.withoutFiles_files_isSome gone,
    t.withoutFiles_entityRows gone, t.withoutFiles_fileRecords gone⟩

theorem agreeOn (h : Removed gone t t') : t.AgreeOn (fun file => !gone.contains file) t' := by
  refine ⟨h.entityTable, h.fileTable, ?_, ?_⟩
  · rw [h.entityRows, List.filter_filter, funext fun r => Bool.and_self _]
  · rw [h.fileRecords, List.filter_filter, funext fun r => Bool.and_self _]

theorem agreeOn_of_notMem (h : Removed gone t t') {filePath : String} (hpath : filePath ∉ gone) :
    t.AgreeOn (· == filePath) t' :=
  h.agreeOn.on (not_contains hpath)

end Removed

/-- a path is in the ledger -/
def Tables.Ledgered (t : Tables) (path : String) : Prop :=
  path ∈ t.fileRecords.map (·.filePath)

/-- The records of the ledger are listed by path. -/
theorem FileLedger.pairwise_of_all {t : Tables} {records : List FileRecord}
    (h : all t = .ok records) :
    records.Perm t.fileRecords ∧ records.Pairwise fun a b => a.filePath ≤ b.filePath := by
  obtain ⟨-, rfl⟩ := all_eq_ok.mp h
  exact ⟨List.mergeSort_perm _ _,
    pairwise_mergeSort_key FileRecord.filePath String.le_trans String.le_total t.fileRecords⟩

namespace Indexer

variable {db after : Database} {filePath : String} {paths : List String}

theorem entityCount_of_agreeOn {t t' : Tables} (h : t.AgreeOn (· == filePath) t') :
    entityCount t' filePath = entityCount t filePath := by
  rw [entityCount, Tables.rowsIn, h.entityRows]
  rfl

theorem removeFiles_eq_ok {ds : List DeletionRecord}
    (h : (removeFiles paths).runOn db = (.ok ds, after)) :
    Removed paths db.tables after.tables ∧
      (paths.Nodup → ds = paths.map fun path => ⟨path, entityCount db.tables path⟩) := by
  obtain ⟨rfl, hcounts⟩ := withoutFiles_of_removeFiles h
  exact ⟨.withoutFiles paths db.tables, hcounts⟩

/-! ### The paths of the ledger -/

/-- The paths of the ledger that pass a test are listed in ascending order. -/
theorem ledgered_eq_ok {test : String → Bool}
    (h : (ledgered test).runOn db = (.ok paths, after)) :
    after = db ∧ (∀ path, path ∈ paths ↔ db.tables.Ledgered path ∧ test path = true) ∧
      ((db.tables.fileRecords.map (·.filePath)).Nodup → paths.Pairwise (· < ·)) := by
  obtain ⟨records, mid, hquery, h⟩ := runOn_bind_eq_ok.mp h
  obtain ⟨hall, rfl⟩ := Prod.mk.inj hquery
  obtain ⟨hpaths, rfl⟩ := Prod.mk.inj h
  obtain ⟨hperm, hsorted⟩ := FileLedger.pairwise_of_all hall
  have hpaths : paths = (records.map (·.filePath)).filter test := (Except.ok.inj hpaths).symm
  have hmap := hperm.map (·.filePath)
  subst hpaths
  refine ⟨rfl, fun path => ?_, fun hdistinct => List.Pairwise.filter _ ?_⟩
  · rw [List.mem_filter, hmap.mem_iff]
    rfl
  · have hle : (records.map (·.filePath)).Pairwise (· ≤ ·) := List.pairwise_map.mpr hsorted
    refine hle.imp₂ (fun a b hab hne => ?_) (hmap.nodup_iff.mpr hdistinct)
    exact String.not_le.mp fun hba => hne (String.le_antisymm hab hba)

/-! ### A sweep -/

variable {disk : Disk} {options : IndexerOptions} {extractor : Extractor} {root : String}
  {report : SyncReport}

/-- A sweep indexes what it finds, and then removes what is stale. -/
theorem sync_eq_ok (h : (sync disk options extractor root).runOn db = (.ok report, after)) :
    ∃ mid stale last,
      ((discover disk (disk.base.resolve root) options.exclude).mapM fun p =>
        indexFile disk options extractor p.text).runOn db = (.ok report.outcomes, mid) ∧
      (staleBelow (disk.base.resolve root) (report.outcomes.map (·.filePath))).runOn mid =
        (.ok stale, last) ∧
      (removeFiles stale).runOn last = (.ok report.deleted, after) := by
  obtain ⟨outcomes, mid, hindex, h⟩ := runOn_bind_eq_ok.mp h
  obtain ⟨stale, last, hstale, h⟩ := runOn_bind_eq_ok.mp h
  obtain ⟨deleted, final, hremove, h⟩ := runOn_bind_eq_ok.mp h
  cases h
  exact ⟨mid, stale, last, hindex, hstale, hremove⟩

end Indexer

/-- what a sweep did to a file: an error leaves it as it was, and otherwise its content is noted -/
structure FileExact (disk : Disk) (path : String) (o : IndexOutcome) (t t' : Tables) : Prop where
  failed : o.action = .error → t.AgreeOn (· == path) t'
  noted : o.action ≠ .error → ∃ content r, disk.readText path = .ok content ∧
    FileLedger.find? path t' = .ok (some r) ∧ r.contentHash = Blake3.hash content.toUTF8

/-- What a sweep did that found some files below a directory, by the tables before and after it. -/
structure SyncExact (disk : Disk) (root : Path) (found : List Path) (t t' : Tables)
    (report : SyncReport) : Prop where
  /-- There is one outcome for each file. -/
  outcomes : report.outcomes.map (·.filePath) = found.map Path.text
  counts : report.count .created + report.count .updated + report.count .skipped +
    report.count .error = found.length
  /-- What is deleted is listed by path, -/
  ascending : (report.deleted.map (·.filePath)).Pairwise (· < ·)
  /-- and was in the ledger below the directory without being found, -/
  deleted : ∀ path, path ∈ report.deleted.map (·.filePath) ↔
    t.Ledgered path ∧ root.isBelow path = true ∧ path ∉ found.map Path.text
  /-- each with the number of entities that it had. -/
  removed : ∀ d ∈ report.deleted, d.entitiesRemoved = Indexer.entityCount t d.filePath
  ledgered : ∀ path, root.isBelow path = true →
    (t'.Ledgered path ↔ ∃ o ∈ report.outcomes, o.filePath = path ∧
      (o.action ≠ .error ∨ t.Ledgered path))
  files : ∀ o ∈ report.outcomes, FileExact disk o.filePath o t t'
  /-- Files that are not below the directory stay as they were. -/
  elsewhere : t.AgreeOn (fun path => !root.isBelow path) t'

theorem SyncReport.count_add (r : SyncReport) :
    r.count .created + r.count .updated + r.count .skipped + r.count .error =
      r.outcomes.length := by
  obtain ⟨outcomes, deleted⟩ := r
  unfold count
  induction outcomes with
  | nil => rfl
  | cons o os ih =>
    rw [List.length_cons, ← ih]
    cases haction : o.action <;> simp [haction] <;> omega

theorem FileLedger.ledgered_of_find? {path : String} {t : Tables} {r : FileRecord}
    (h : find? path t = .ok (some r)) : t.Ledgered path := by
  obtain ⟨-, hfind⟩ := find?_eq_ok.mp h
  have hpath : r.filePath = path := by simpa using List.find?_some hfind
  exact List.mem_map.mpr ⟨r, List.mem_of_find?_eq_some hfind, hpath⟩

theorem FileLedger.not_ledgered_of_find? {path : String} {t : Tables}
    (h : find? path t = .ok none) : ¬ t.Ledgered path := by
  obtain ⟨-, hfind⟩ := find?_eq_ok.mp h
  rw [List.find?_eq_none] at hfind
  intro hmem
  obtain ⟨r, hr, rfl⟩ := List.mem_map.mp hmem
  exact hfind r hr (beq_self_eq_true _)

/-- Tables that agree on a file agree on whether it is in the ledger. -/
theorem Tables.AgreeOn.ledgered_iff {path : String} {t t' : Tables}
    (h : t.AgreeOn (· == path) t') : t'.Ledgered path ↔ t.Ledgered path := by
  have hiff : ∀ u : Tables, u.Ledgered path ↔ u.fileRecords.filter (·.filePath == path) ≠ [] := by
    intro u
    rw [Ledgered, List.mem_map, ne_eq, List.filter_eq_nil_iff]
    simp
  rw [hiff, hiff]
  exact not_congr (h.fileRecords ▸ Iff.rfl)

theorem FileExact.frame {disk : Disk} {path : String} {o : IndexOutcome} {t₀ t t' t₁ : Tables}
    (hbefore : t₀.AgreeOn (· == path) t) (hafter : t'.AgreeOn (· == path) t₁)
    (h : FileExact disk path o t t') : FileExact disk path o t₀ t₁ where
  failed herror := (hbefore.trans (h.failed herror)).trans hafter
  noted hok := by
    obtain ⟨content, r, hread, hfind, hhash⟩ := h.noted hok
    exact ⟨content, r, hread, FileLedger.find?_of_agreeOn hafter hfind, hhash⟩

/-- A file is in the ledger after its call unless the call ended with an error and it was not. -/
theorem FileExact.ledgered_iff {disk : Disk} {path : String} {o : IndexOutcome} {t t' : Tables}
    (h : FileExact disk path o t t') :
    t'.Ledgered path ↔ o.action ≠ .error ∨ t.Ledgered path := by
  by_cases herror : o.action = .error
  · rw [(h.failed herror).ledgered_iff]
    exact (or_iff_right fun hok => hok herror).symm
  · obtain ⟨content, r, -, hfind, -⟩ := h.noted herror
    exact iff_of_true (FileLedger.ledgered_of_find? hfind) (.inl herror)

namespace Indexer

variable {db after : Database} {disk : Disk} {options : IndexerOptions} {extractor : Extractor}
  {root : String} {report : SyncReport}

theorem indexFile_exact {p : Path} {o : IndexOutcome} (hbase : disk.base.IsPlain) (hp : p.IsPlain)
    (h : (indexFile disk options extractor p.text).runOn db = (.ok o, after)) :
    FileExact disk p.text o db.tables after.tables := by
  have hnormal : disk.base.normalize p.text = p.text := Path.normalize_text hp
  rcases indexFile_cases hbase options extractor p.text with
    ⟨o', -, haction, hindex⟩ | ⟨content, language, hread, hindex⟩
  · rw [hindex] at h
    cases h
    exact ⟨fun _ => .refl _, fun hok => absurd haction hok⟩
  · rw [hindex, hnormal] at h
    cases indexKnown_eq_ok h with
    | skipped hprevious hsame =>
      obtain ⟨-, r, rfl, hhash⟩ := isUnchanged_eq_true.mp hsame
      exact ⟨fun _ => .refl _, fun _ => ⟨content, r, hread, hprevious, hhash⟩⟩
    | failed => exact ⟨fun _ => .refl _, fun hok => absurd rfl hok⟩
    | replaced _ _ _ _ haction hreplaced =>
      refine ⟨fun herror => ?_, fun _ => ?_⟩
      · rw [haction] at herror
        split at herror <;> cases herror
      · obtain ⟨r, hfind, hhash⟩ := hreplaced.exists_find?
        exact ⟨content, r, hread, hfind, hhash⟩

/-- What happens to the files of a sweep, one after another. -/
theorem mapM_indexFile_exact {found : List Path} {os : List IndexOutcome}
    (hbase : disk.base.IsPlain) (hplain : ∀ p ∈ found, p.IsPlain)
    (hdistinct : (found.map Path.text).Nodup)
    (h : (found.mapM fun p => indexFile disk options extractor p.text).runOn db =
      (.ok os, after)) :
    os.map (·.filePath) = found.map Path.text ∧
      (∀ o ∈ os, FileExact disk o.filePath o db.tables after.tables) ∧
      db.tables.AgreeOn (fun file => !(found.map Path.text).contains file) after.tables := by
  have hnormal : found.map (fun p => disk.base.normalize p.text) = found.map Path.text :=
    List.map_congr_left fun p hp => Path.normalize_text (hplain p hp)
  obtain ⟨hpaths, hall, hothers⟩ := mapM_indexFile_eq_ok
    (Q := fun p o t t' => p.IsPlain → o.filePath = p.text ∧ FileExact disk p.text o t t') hbase
    (fun p o db after hrun hp =>
      ⟨(indexFile_agreeOn hbase hrun).1.trans (Path.normalize_text hp),
        indexFile_exact hbase hp hrun⟩)
    (fun p o t₀ t t' t₁ hbefore hafter hQ hp => by
      rw [Path.normalize_text hp] at hbefore hafter
      exact ⟨(hQ hp).1, (hQ hp).2.frame hbefore hafter⟩)
    (hnormal ▸ hdistinct) h
  rw [hnormal] at hpaths hothers
  refine ⟨hpaths, fun o ho => ?_, hothers⟩
  obtain ⟨p, hp, hexact⟩ := exists_of_forall₂_of_mem_right hall ho
  obtain ⟨hpath, hexact⟩ := hexact (hplain p hp)
  rw [hpath]
  exact hexact

theorem ledgered_of_removed {gone : List String} {t t' : Tables} (h : Removed gone t t')
    {path : String} : t'.Ledgered path ↔ t.Ledgered path ∧ path ∉ gone := by
  simp only [Tables.Ledgered, h.fileRecords, List.mem_map, List.mem_filter]
  constructor
  · rintro ⟨r, ⟨hr, hkept⟩, rfl⟩
    refine ⟨⟨r, hr, rfl⟩, fun hgone => ?_⟩
    rw [List.contains_iff_mem.mpr hgone] at hkept
    cases hkept
  · rintro ⟨⟨r, hr, rfl⟩, hnot⟩
    exact ⟨r, ⟨hr, not_contains hnot⟩, rfl⟩

/-- The parts of a sweep, put together: first the files that were found, then the stale ones. -/
theorem syncExact_of_steps {directory : Path} {found : List Path} {t mid t' : Tables}
    {stale : List String} (hbelow : ∀ path ∈ found.map Path.text, directory.isBelow path = true)
    (hpaths : report.outcomes.map (·.filePath) = found.map Path.text)
    (hfiles : ∀ o ∈ report.outcomes, FileExact disk o.filePath o t mid)
    (hothers : t.AgreeOn (fun file => !(found.map Path.text).contains file) mid)
    (hascending : stale.Pairwise (· < ·))
    (hstale : ∀ path, path ∈ stale ↔
      mid.Ledgered path ∧ directory.isBelow path = true ∧ path ∉ found.map Path.text)
    (hdeleted : report.deleted = stale.map fun path => ⟨path, entityCount mid path⟩)
    (hremoved : Removed stale mid t') : SyncExact disk directory found t t' report := by
  -- a file that was not found is as it was when the stale ones go,
  have hkept : ∀ path, path ∉ found.map Path.text → t.AgreeOn (· == path) mid := fun path hpath =>
    hothers.on (not_contains hpath)
  have hgone : ∀ path, path ∈ stale ↔
      t.Ledgered path ∧ directory.isBelow path = true ∧ path ∉ found.map Path.text := by
    intro path
    rw [hstale]
    exact and_congr_left fun h => (hkept path h.2).ledgered_iff
  have hpathsDeleted : report.deleted.map (·.filePath) = stale := by
    rw [hdeleted, List.map_map]
    exact List.map_id _
  -- and one that was found is not among them
  have hfiles' : ∀ o ∈ report.outcomes, FileExact disk o.filePath o t t' := by
    intro o ho
    have hfound : o.filePath ∈ found.map Path.text := hpaths ▸ List.mem_map_of_mem ho
    have hnot : o.filePath ∉ stale := fun h => ((hgone _).mp h).2.2 hfound
    exact (hfiles o ho).frame (.refl _) (hremoved.agreeOn_of_notMem hnot)
  refine ⟨hpaths, ?counts, by rw [hpathsDeleted]; exact hascending, ?deleted, ?removed, ?ledgered,
    hfiles', ?elsewhere⟩
  case counts =>
    have hlength := congrArg List.length hpaths
    rw [List.length_map, List.length_map] at hlength
    rw [report.count_add, hlength]
  case deleted =>
    rw [hpathsDeleted]
    exact hgone
  case removed =>
    intro d hd
    rw [hdeleted] at hd
    obtain ⟨path, hpath, rfl⟩ := List.mem_map.mp hd
    exact entityCount_of_agreeOn (hkept path ((hgone path).mp hpath).2.2)
  case ledgered =>
    intro path hpath
    constructor
    · intro h
      obtain ⟨hmid, hnot⟩ := (ledgered_of_removed hremoved).mp h
      have hfound : path ∈ report.outcomes.map (·.filePath) := by
        rw [hpaths]
        by_contra hnone
        exact hnot ((hstale path).mpr ⟨hmid, hpath, hnone⟩)
      obtain ⟨o, ho, rfl⟩ := List.mem_map.mp hfound
      exact ⟨o, ho, rfl, (hfiles' o ho).ledgered_iff.mp h⟩
    · rintro ⟨o, ho, rfl, hcase⟩
      exact (hfiles' o ho).ledgered_iff.mpr hcase
  case elsewhere =>
    have hnot : ∀ path, (!directory.isBelow path) = true → ¬ directory.isBelow path = true :=
      fun path h => by rwa [Bool.not_eq_true', ← Bool.not_eq_true] at h
    refine (hothers.mono fun path h => ?_).trans (hremoved.agreeOn.mono fun path h => ?_)
    · exact not_contains fun hfound => hnot path h (hbelow path hfound)
    · exact not_contains fun hstale => hnot path h ((hgone path).mp hstale).2.1

/-- **Sweeps are exact.** Whatever calls led to a store, a sweep of it that does not fail gives one
outcome for each file that it finds. It deletes exactly the files of the ledger that lie below its
directory and were not found. Files that are not errors are in the ledger with the hash of their
content, an error stays as it was, and nothing happens to files elsewhere. -/
theorem sync_exact {migrated : Bool} {p : Script}
    (hreached : db ∈ p.visited (Database.opened migrated))
    (hbase : disk.base.IsPlain) (htree : disk.root.IsPlain)
    (hdistinct : ((discover disk (disk.base.resolve root) options.exclude).map Path.text).Nodup)
    (hrun : (sync disk options extractor root).runOn db = (.ok report, after)) :
    SyncExact disk (disk.base.resolve root)
      (discover disk (disk.base.resolve root) options.exclude) db.tables after.tables report := by
  have hsound := p.visited_sound (Database.opened_sound migrated) db hreached
  have hfound : ∀ q ∈ discover disk (disk.base.resolve root) options.exclude,
      q.IsPlain ∧ (disk.base.resolve root).isBelow q.text = true := by
    intro q hq
    obtain ⟨hplain, hbelow, -⟩ := mem_discover htree (Path.resolve_isPlain hbase root) hq
    exact ⟨hplain, hbelow⟩
  obtain ⟨mid, stale, last, hindex, hstale, hremove⟩ := sync_eq_ok hrun
  obtain ⟨hpaths, hfiles, hothers⟩ :=
    mapM_indexFile_exact hbase (fun q hq => (hfound q hq).1) hdistinct hindex
  have hmid : mid.Sound := by
    have hsafe := StoreM.Safe.mapM (discover disk (disk.base.resolve root) options.exclude)
      fun q _ => indexFile_safe disk options extractor q.text
    have hafter := hsafe db hsound
    rw [hindex] at hafter
    exact hafter
  obtain ⟨rfl, hmem, hascending⟩ := ledgered_eq_ok hstale
  replace hascending := hascending hmid.tables.distinctPaths
  obtain ⟨hremoved, hdeleted⟩ := removeFiles_eq_ok hremove
  replace hdeleted := hdeleted (hascending.imp fun hlt => String.ne_of_lt hlt)
  refine syncExact_of_steps ?_ hpaths hfiles hothers hascending (fun path => ?_) hdeleted hremoved
  · intro path hpath
    obtain ⟨q, hq, rfl⟩ := List.mem_map.mp hpath
    exact (hfound q hq).2
  · rw [hmem, hpaths, Bool.and_eq_true, Bool.not_eq_true', ← Bool.not_eq_true,
      List.contains_iff_mem]

/-- a directory next to one whose name begins with its own -/
def siblingTree : Node :=
  .directory [("repo", .directory [("a.ts", emptyFile), ("b.ts", emptyFile)]),
    ("repo-old", .directory [("x.ts", emptyFile)])]

/-- the directory after one of its files went and another one was spoilt -/
def spoiltTree : Node := .directory [("repo", .directory [("b.ts", .file ⟨#[255]⟩)])]

def repoSweep : Sweep := { linkSweep with root := "/repo" }

theorem siblingTree_isPlain : siblingTree.IsPlain ∧ spoiltTree.IsPlain := by
  have hname : ∀ name ∈ ["repo", "repo-old", "a.ts", "b.ts", "x.ts"], Path.IsPlainName name := by
    intro name h
    simp only [List.mem_cons, List.not_mem_nil, or_false] at h
    rcases h with rfl | rfl | rfl | rfl | rfl <;> exact ⟨by decide, by decide, by decide, by decide⟩
  exact ⟨⟨hname _ (by simp), ⟨hname _ (by simp), trivial, hname _ (by simp), trivial, trivial⟩,
    hname _ (by simp), ⟨hname _ (by simp), trivial, trivial⟩, trivial⟩,
    ⟨hname _ (by simp), ⟨hname _ (by simp), trivial, trivial⟩, trivial⟩⟩

/-- Of two files that are no longer swept, the one in the directory is deleted, and the one next to
it is not. -/
theorem sync_exact_sibling : ∃ (p : Script) (db after : Database) (report : SyncReport),
    db ∈ p.visited (Database.opened true) ∧
    (sync (repoSweep.disk spoiltTree) {} linkExtractor "/repo").runOn db = (.ok report, after) ∧
    SyncExact (repoSweep.disk spoiltTree) ⟨["repo"]⟩ [⟨["repo", "b.ts"]⟩] db.tables after.tables
      report ∧
    "/repo/a.ts" ∈ report.deleted.map (·.filePath) ∧
    "/repo-old/x.ts" ∉ report.deleted.map (·.filePath) := by
  obtain ⟨first, db, hfirst, hdb⟩ := Sweep.run_shows_order (s := linkSweep) siblingTree_isPlain.1
  obtain ⟨report, after, hrun, -⟩ := Sweep.run_shows (s := repoSweep) siblingTree_isPlain.2 hdb
  let p : Script := .call (.sync (linkSweep.disk siblingTree) {} linkExtractor "/")
  have hreached : db ∈ p.visited (Database.opened true) := by
    have hlast : (p.run.runOn (Database.opened true)).2 = db :=
      congrArg Prod.snd (runOn_discard_ok hfirst)
    exact hlast ▸ p.final_mem_visited (Database.opened true)
  have hroot : repoSweep.directory = ⟨["repo"]⟩ := by decide
  have hfound : repoSweep.paths spoiltTree = [⟨["repo", "b.ts"]⟩] := by decide +kernel
  have hdistinct : ((repoSweep.paths spoiltTree).map Path.text).Nodup := by
    rw [hfound]
    decide
  have hexact : SyncExact (repoSweep.disk spoiltTree) repoSweep.directory
      (repoSweep.paths spoiltTree) db.tables after.tables report :=
    sync_exact hreached repoSweep.plain siblingTree_isPlain.2 hdistinct hrun
  rw [hroot, hfound] at hexact
  have horder : (linkSweep.order [siblingTree]).map Version.filePath =
      ["/repo/a.ts", "/repo/b.ts", "/repo-old/x.ts"] := by
    decide +kernel
  have hledgered : db.tables.Ledgered "/repo/a.ts" := by
    have hpaths := (hdb.ledger.map Prod.fst).mem_iff (a := "/repo/a.ts")
    rw [List.map_map, List.map_map] at hpaths
    exact hpaths.mpr (horder ▸ by decide)
  refine ⟨p, db, after, report, hreached, hrun, hexact, ?_, fun hold => ?_⟩
  · exact (hexact.deleted _).mpr ⟨hledgered, by decide, by decide⟩
  · exact absurd ((hexact.deleted _).mp hold).2.1 (by decide)

end Indexer

end CodeAtlas
