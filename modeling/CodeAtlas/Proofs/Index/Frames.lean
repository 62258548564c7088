import CodeAtlas.Proofs.Index.Lookup
import CodeAtlas.Proofs.Path

/-!
# What indexing a file leaves alone

Whatever the store, indexing a file that does not fail ends in one of three ways, and touches the
rows and the ledger record of no other file.

* `Tables.AgreeOn`                 the same rows and records, for the files that pass a test;
* `Indexer.cleared`                the tables when what was stored of a file is gone;
* `Indexer.replaceBody_steps`      replacing a file, step by step;
* `Indexer.replace_eq_ok`          what replacing a file did;
* `Indexer.KnownEnd`               the ways in which indexing a content ends;
* `Indexer.indexFile_agreeOn`      the other files are left alone;
* `Indexer.mapM_indexFile_eq_ok`   what is said of each file still holds after the files that follow.
-/

namespace CodeAtlas

open StoreM

/-! ### Agreement -/

namespace Tables

/-- The rows and the ledger records of the files that pass a test are the same. -/
structure AgreeOn (keep : String → Bool) (t t' : Tables) : Prop where
  entityTable : t'.entities.isSome = t.entities.isSome
  fileTable : t'.files.isSome = t.files.isSome
  entityRows : t'.entityRows.filter (fun r => keep r.filePath) =
    t.entityRows.filter fun r => keep r.filePath
  fileRecords : t'.fileRecords.filter (fun r => keep r.filePath) =
    t.fileRecords.filter fun r => keep r.filePath

namespace AgreeOn

variable {keep keep' : String → Bool} {t t' t'' : Tables} {filePath : String}

theorem refl (t : Tables) : t.AgreeOn keep t := ⟨rfl, rfl, rfl, rfl⟩

theorem trans (h : t.AgreeOn keep t') (h' : t'.AgreeOn keep t'') : t.AgreeOn keep t'' :=
  ⟨h'.entityTable.trans h.entityTable, h'.fileTable.trans h.fileTable,
    h'.entityRows.trans h.entityRows, h'.fileRecords.trans h.fileRecords⟩

theorem filter_congr {ρ : Type} {path : ρ → String} {rows rows' : List ρ}
    (hkeep : ∀ file, keep' file = true → keep file = true)
    (h : rows'.filter (fun r => keep (path r)) = rows.filter fun r => keep (path r)) :
    rows'.filter (fun r => keep' (path r)) = rows.filter fun r => keep' (path r) := by
  have hfilter : ∀ rs : List ρ, rs.filter (fun r => keep' (path r)) =
      (rs.filter fun r => keep (path r)).filter fun r => keep' (path r) := by
    intro rs
    rw [List.filter_filter]
    refine List.filter_congr fun r _ => ?_
    cases hr : keep' (path r) with
    | false => rfl
    | true => rw [hkeep _ hr, Bool.and_true]
  rw [hfilter rows', h, ← hfilter rows]

theorem mono (h : t.AgreeOn keep t') (hkeep : ∀ file, keep' file = true → keep file = true) :
    t.AgreeOn keep' t' :=
  ⟨h.entityTable, h.fileTable, filter_congr hkeep h.entityRows, filter_congr hkeep h.fileRecords⟩

theorem on (h : t.AgreeOn keep t') (hkeep : keep filePath = true) :
    t.AgreeOn (· == filePath) t' :=
  h.mono fun _ hfile => (eq_of_beq hfile).symm ▸ hkeep

end AgreeOn

end Tables

section

variable {t t' : Tables} {filePath : String}

theorem FileLedger.find?_of_agreeOn {previous : Option FileRecord}
    (h : t.AgreeOn (· == filePath) t') (hfind : find? filePath t = .ok previous) :
    find? filePath t' = .ok previous := by
  obtain ⟨hfiles, hfind⟩ := find?_eq_ok.mp hfind
  refine find?_eq_ok.mpr ⟨h.fileTable.trans hfiles, ?_⟩
  rw [← List.head?_filter, h.fileRecords, List.head?_filter, hfind]

theorem Entities.byFile_of_agreeOn {entities : List Entity} (h : t.AgreeOn (· == filePath) t')
    (hread : byFile filePath t = .ok entities) : byFile filePath t' = .ok entities := by
  obtain ⟨rows, hrows, hread⟩ := Tables.bind_eq_ok.mp hread
  have hsame := rows_eq_ok hrows
  unfold Entities.rows at hrows
  cases hents : t.entityTable with
  | error fault =>
    rw [hents] at hrows
    cases hrows
  | ok table =>
    have htable := Tables.entityTable_eq_ok.mp hents
    obtain ⟨table', htable'⟩ : ∃ table', t'.entities = some table' :=
      Option.isSome_iff_exists.mp (by rw [h.entityTable, htable]; rfl)
    have hfilter := h.entityRows
    rw [Tables.entityRows_of_some htable'] at hfilter
    rw [byFile, Entities.rows, Tables.entityTable_eq_ok.mpr htable', ← hread, hsame]
    show readAll ((table'.rows.filter _).mergeSort _) = _
    rw [hfilter]

end

/-! ### Replacing a file -/

theorem StoreM.runOn_discard_eq_ok {α : Type} {x : StoreM α} {db after : Database} {u : PUnit}
    (h : (discard x).runOn db = (.ok u, after)) : ∃ a, x.runOn db = (.ok a, after) := by
  rw [runOn_discard] at h
  rcases hx : x.runOn db with ⟨r, last⟩
  rw [hx] at h
  cases r with
  | error e => cases h
  | ok a =>
    cases h
    exact ⟨a, rfl⟩

/-- What replacing a file by entities did to the tables. What was stored of the file goes if the
file was known. -/
structure Replaced (filePath hash : String) (known : Bool) (es : List Entity) (t t' : Tables) :
    Prop where
  before : t.entities.isSome = true
  after : t'.entities.isSome = true
  entityRows : t'.entityRows =
    (if known then t.entityRows.filter (·.filePath != filePath) else t.entityRows) ++
      es.map .ofEntity
  files : ∃ table language, t.files = some table ∧
    t'.files = some { table with
      rows := Tables.refreshed filePath hash language table
      lastId := table.lastId + 1 }

namespace Tables

variable {filePath hash language : String} {table : FileTable}

theorem filter_refreshed (keep : String → Bool) (h : keep filePath = false) :
    (refreshed filePath hash language table).filter (fun r => keep r.filePath) =
      table.rows.filter fun r => keep r.filePath := by
  unfold refreshed
  split
  · have hpath : ((fun r : FileRecord => keep r.filePath) ∘ fun r =>
        if r.filePath = filePath then { r with contentHash := hash, language } else r) =
        fun r => keep r.filePath := by
      funext r
      rw [Function.comp_apply]
      split <;> rfl
    rw [List.filter_map, hpath]
    refine (List.map_congr_left fun r hr => if_neg ?_).trans (List.map_id' _)
    intro heq
    rw [← heq, (List.mem_filter.mp hr).2] at h
    cases h
  · rw [List.filter_append, List.filter_cons_of_neg (by simp [h]), List.filter_nil,
      List.append_nil]

theorem entry_of_mem_refreshed {r : FileRecord} (h : r ∈ refreshed filePath hash language table)
    (hpath : r.filePath = filePath) : r.entry = (filePath, hash, language) := by
  unfold refreshed at h
  split at h
  · obtain ⟨r', _, rfl⟩ := List.mem_map.mp h
    split
    · rename_i heq
      rw [FileRecord.entry, heq]
    · rename_i hne
      rw [if_neg hne] at hpath
      exact absurd hpath hne
  · rename_i hnone
    rcases List.mem_append.mp h with h | h
    · have hany : table.rows.any (·.filePath == filePath) = true :=
        List.any_eq_true.mpr ⟨r, h, by simp [hpath]⟩
      exact absurd hany hnone
    · rw [List.mem_singleton.mp h]
      rfl

/-- A path that was recorded is found with its hash and its language. -/
theorem exists_find?_of_refreshed {t : Tables} (h : t.files = some { table with
      rows := refreshed filePath hash language table
      lastId := table.lastId + 1 }) :
    ∃ r, FileLedger.find? filePath t = .ok (some r) ∧ r.entry = (filePath, hash, language) := by
  obtain ⟨r, hr⟩ := Option.isSome_iff_exists.mp
    (FileLedger.find?_refreshed filePath hash language table)
  have hpath : r.filePath = filePath := by simpa using List.find?_some hr
  refine ⟨r, ?_, entry_of_mem_refreshed (List.mem_of_find?_eq_some hr) hpath⟩
  rw [FileLedger.find?_eq_ok, fileRecords_of_some h, h]
  exact ⟨rfl, hr⟩

end Tables

namespace Replaced

variable {filePath hash : String} {known : Bool} {es : List Entity} {t t' : Tables}

theorem agreeOn (h : Replaced filePath hash known es t t') (hes : ∀ e ∈ es, e.filePath = filePath) :
    t.AgreeOn (· != filePath) t' := by
  obtain ⟨table, language, htable, htable'⟩ := h.files
  have hnew : (es.map EntityRow.ofEntity).filter (fun r => r.filePath != filePath) = [] := by
    rw [List.filter_eq_nil_iff]
    intro r hr
    obtain ⟨e, he, rfl⟩ := List.mem_map.mp hr
    simp [EntityRow.ofEntity, hes e he]
  refine ⟨h.after.trans h.before.symm, by rw [htable, htable']; rfl, ?_, ?_⟩
  · rw [h.entityRows, List.filter_append, hnew, List.append_nil]
    cases known with
    | false => rfl
    | true => rw [if_pos rfl, List.filter_filter, funext fun r => Bool.and_self _]
  · rw [Tables.fileRecords_of_some htable', Tables.fileRecords_of_some htable]
    exact Tables.filter_refreshed (· != filePath) (bne_self_eq_false filePath)

/-- The file is in the ledger, with the new hash. -/
theorem exists_find? (h : Replaced filePath hash known es t t') :
    ∃ r, FileLedger.find? filePath t' = .ok (some r) ∧ r.contentHash = hash := by
  obtain ⟨table, language, -, htable'⟩ := h.files
  obtain ⟨r, hfind, hentry⟩ := Tables.exists_find?_of_refreshed htable'
  exact ⟨r, hfind, congrArg (·.2.1) hentry⟩

end Replaced

namespace Resolver

theorem exists_table_of_resolve {es : List NewEntity} {rs : List ExtractedRelationship}
    {db after : Database} {r : ResolutionReport}
    (h : (resolve es rs).runOn db = (.ok r, after)) : db.tables.entities.isSome = true := by
  obtain ⟨mid, hbody, -⟩ := runOn_transaction_eq_ok (resolveWithin_balanced es rs) h
  obtain ⟨cache, _, hload, -⟩ := runOn_bind_eq_ok.mp hbody
  obtain ⟨table, htable, -⟩ := EntityCache.load_eq_ok (Prod.mk.inj hload).1
  rw [db.entered_tables] at htable
  rw [htable]
  rfl

end Resolver

namespace Indexer

variable {filePath hash language : String} {known : Bool} {x : Extraction} {db after : Database}
  {report : ResolutionReport}

/-- the tables on which the extraction of a file is resolved -/
def cleared (filePath : String) (known : Bool) (t : Tables) : Tables :=
  if known then t.withoutFile filePath else t

/-- the entities that are deleted when a file is replaced -/
def deletedIds (filePath : String) (known : Bool) (t : Tables) : List String :=
  if known then t.idsOf (·.filePath == filePath) else []

theorem cleared_entities_isSome (filePath : String) (known : Bool) (t : Tables) :
    (cleared filePath known t).entities.isSome = t.entities.isSome := by
  cases known with
  | true => exact t.without_entities_isSome _
  | false => rfl

theorem cleared_files (filePath : String) (known : Bool) (t : Tables) :
    (cleared filePath known t).files = t.files := by
  cases known <;> rfl

theorem cleared_entityRows (filePath : String) (known : Bool) (t : Tables) :
    (cleared filePath known t).entityRows =
      if known then t.entityRows.filter (·.filePath != filePath) else t.entityRows := by
  cases known with
  | true => exact t.withoutFile_entityRows filePath
  | false => rfl

theorem cleared_relationshipRows (filePath : String) (known : Bool) (t : Tables) :
    (cleared filePath known t).relationshipRows = t.relationshipRows.filter fun r =>
      !(deletedIds filePath known t).contains r.sourceId &&
        !(deletedIds filePath known t).contains r.targetId := by
  cases known with
  | true => exact t.without_relationshipRows _
  | false => exact (List.filter_eq_self.mpr fun _ _ => rfl).symm

theorem replaceBody_steps
    (h : (replaceBody filePath hash language known x).runOn db = (.ok report, after)) :
    ∃ last, (Resolver.resolve x.entities x.relationships).runOn
        { db with tables := cleared filePath known db.tables } = (.ok report, last) ∧
      last.tables.upsertFile filePath hash language = .ok after.tables ∧
      after = { last with tables := after.tables } := by
  have hrest : ∀ mid : Database,
      (Resolver.resolve x.entities x.relationships >>= fun report =>
        discard (FileLedger.upsert filePath hash language) >>= fun _ => pure report).runOn mid =
          (.ok report, after) →
      ∃ last, (Resolver.resolve x.entities x.relationships).runOn mid = (.ok report, last) ∧
        last.tables.upsertFile filePath hash language = .ok after.tables ∧
        after = { last with tables := after.tables } := by
    intro mid hrun
    obtain ⟨r, last, hresolve, hrun⟩ := runOn_bind_eq_ok.mp hrun
    obtain ⟨_, final, hupsert, hrun⟩ := runOn_bind_eq_ok.mp hrun
    cases hrun
    rw [runOn_discard, FileLedger.upsert_runOn] at hupsert
    cases hup : last.tables.upsertFile filePath hash language with
    | error fault =>
      rw [hup] at hupsert
      cases hupsert
    | ok tables =>
      rw [hup] at hupsert
      obtain ⟨-, rfl⟩ := Prod.mk.inj hupsert
      exact ⟨last, hresolve, hup, rfl⟩
  cases known with
  | false => exact hrest db h
  | true =>
    obtain ⟨_, mid, hdelete, h⟩ := runOn_bind_eq_ok.mp h
    obtain ⟨n, hdelete⟩ := runOn_discard_eq_ok hdelete
    obtain ⟨-, -, rfl⟩ := Entities.deleteWhere_eq_ok.mp hdelete
    exact hrest _ h

theorem replaceBody_eq_ok
    (h : (replaceBody filePath hash language known x).runOn db = (.ok report, after)) :
    Replaced filePath hash known report.entities db.tables after.tables ∧
      report.entities.map Entity.toNewEntity = x.entities := by
  obtain ⟨last, hresolve, hupsert, -⟩ := replaceBody_steps h
  have hbefore := Resolver.exists_table_of_resolve hresolve
  obtain ⟨⟨hrows, -, hunchanged⟩, hentities⟩ := Resolver.resolution_of_runOn hresolve
  obtain ⟨table, htable, -, hafter⟩ := Tables.upsertFile_eq_ok.mp hupsert
  have hsome : (cleared filePath known db.tables).entities.isSome = true := hbefore
  rw [cleared_entities_isSome] at hsome
  refine ⟨⟨hsome, ?_, ?_, table, language, ?_, by rw [hafter]⟩, hentities⟩
  · rw [hafter, hunchanged]
    show (Option.map _ _).isSome = true
    rw [Option.isSome_map]
    exact hbefore
  · rw [hafter]
    show last.tables.entityRows = _
    rw [hrows]
    exact congrArg (· ++ _) (cleared_entityRows filePath known db.tables)
  · rw [hunchanged] at htable
    exact (cleared_files filePath known db.tables).symm.trans htable

theorem replace_eq_ok
    (h : (replace filePath hash language known x).runOn db = (.ok report, after)) :
    Replaced filePath hash known report.entities db.tables after.tables ∧
      report.entities.map Entity.toNewEntity = x.entities := by
  rw [replace_eq] at h
  obtain ⟨mid, hbody, rfl⟩ :=
    runOn_transaction_eq_ok (replaceBody_balanced filePath hash language known x) h
  have hreplaced := replaceBody_eq_ok hbody
  rw [db.entered_tables] at hreplaced
  exact hreplaced

/-! ### Indexing a file -/

variable {base : Path} {options : IndexerOptions} {extractor : Extractor} {disk : Disk}
  {content path : String} {o : IndexOutcome}

/-- How indexing a content of a known language ends, if it does not fail. -/
inductive KnownEnd (base : Path) (options : IndexerOptions) (extractor : Extractor)
    (filePath content language : String) (db : Database) : IndexOutcome → Database → Prop where
  | skipped {previous : Option FileRecord} {entities : List Entity}
      (hprevious : FileLedger.find? filePath db.tables = .ok previous)
      (hsame : isUnchanged options previous content = true)
      (hread : Entities.byFile filePath db.tables = .ok entities) :
      KnownEnd base options extractor filePath content language db
        { filePath, action := .skipped, language := some language, entities } db
  | failed {previous : Option FileRecord} {e : Error}
      (hprevious : FileLedger.find? filePath db.tables = .ok previous)
      (hchanged : isUnchanged options previous content = false)
      (hfound : checked base extractor filePath content language = .error e) :
      KnownEnd base options extractor filePath content language db
        (.failed filePath (some language) e.message) db
  | replaced {previous : Option FileRecord} {x : Extraction} {o : IndexOutcome} {after : Database}
      (hprevious : FileLedger.find? filePath db.tables = .ok previous)
      (hchanged : isUnchanged options previous content = false)
      (hfound : checked base extractor filePath content language = .ok x)
      (hpath : o.filePath = filePath)
      (haction : o.action = if previous.isSome then .updated else .created)
      (hreplaced : Replaced filePath (Blake3.hash content.toUTF8) previous.isSome o.entities
        db.tables after.tables)
      (hentities : o.entities.map Entity.toNewEntity = x.entities) :
      KnownEnd base options extractor filePath content language db o after

/-- Indexing that does not fail ends in one of these ways. -/
theorem indexKnown_eq_ok
    (h : (indexKnown base options extractor filePath content language).runOn db = (.ok o, after)) :
    KnownEnd base options extractor filePath content language db o after := by
  have hrun := h
  rw [indexKnown_eq] at hrun
  obtain ⟨previous, _, hprevious, -⟩ := runOn_bind_eq_ok.mp hrun
  obtain ⟨hprevious, -⟩ := Prod.mk.inj hprevious
  cases hsame : isUnchanged options previous content with
  | true =>
    rw [indexKnown_of_unchanged hprevious hsame] at h
    cases hread : Entities.byFile filePath db.tables with
    | error e =>
      rw [hread] at h
      cases h
    | ok entities =>
      rw [hread] at h
      cases h
      exact .skipped hprevious hsame hread
  | false =>
    cases hfound : checked base extractor filePath content language with
    | error e =>
      rw [indexKnown_of_failing hprevious hsame hfound] at h
      cases h
      exact .failed hprevious hsame hfound
    | ok x =>
      rw [indexKnown_eq, runOn_bind_ok (runOn_query_ok hprevious), hsame,
        if_neg Bool.false_ne_true, hfound] at h
      obtain ⟨report, mid, hreplace, h⟩ := runOn_bind_eq_ok.mp h
      obtain ⟨hreplaced, hentities⟩ := replace_eq_ok hreplace
      cases h
      exact .replaced hprevious hsame hfound rfl rfl hreplaced hentities

/-- A file cannot be read or has no known language, or its content is indexed. -/
theorem indexFile_cases (hbase : disk.base.IsPlain) (options : IndexerOptions)
    (extractor : Extractor) (path : String) :
    (∃ o, o.filePath = disk.base.normalize path ∧ o.action = .error ∧
      indexFile disk options extractor path = pure o) ∨
    ∃ content language, disk.readText path = .ok content ∧
      indexFile disk options extractor path =
        indexKnown disk.base options extractor (disk.base.normalize path) content language := by
  have hnormal : disk.base.normalize (disk.base.normalize path) = disk.base.normalize path :=
    Path.normalize_text (Path.resolve_isPlain hbase path)
  cases hread : disk.readText path with
  | error fault =>
    have hindex : indexFile disk options extractor path =
        pure (.failed (disk.base.normalize path) none ("unreadable file: " ++ fault.message)) := by
      simp only [indexFile, hread]
    exact .inl ⟨_, rfl, rfl, hindex⟩
  | ok content =>
    have hindex : indexFile disk options extractor path =
        indexContent disk.base options extractor (disk.base.normalize path) content := by
      simp only [indexFile, hread]
    cases hlanguage : Language.detect (disk.base.normalize path) with
    | none =>
      rw [← hnormal] at hlanguage
      rw [hindex, indexContent_of_none hlanguage, hnormal]
      exact .inl ⟨_, rfl, rfl, rfl⟩
    | some language =>
      rw [← hnormal] at hlanguage
      rw [hindex, indexContent_of_some hlanguage, hnormal]
      exact .inr ⟨content, language, rfl, rfl⟩

theorem KnownEnd.filePath_eq
    (h : KnownEnd base options extractor filePath content language db o after) :
    o.filePath = filePath := by
  cases h with
  | skipped | failed => rfl
  | replaced _ _ _ hpath => exact hpath

/-- The entities of an extraction are in the file that it was found in. -/
theorem filePath_of_checked {x : Extraction} {es : List Entity}
    (hfound : checked base extractor filePath content language = .ok x)
    (hentities : es.map Entity.toNewEntity = x.entities) : ∀ e ∈ es, e.filePath = filePath := by
  intro e he
  obtain ⟨found, -, rfl, -⟩ := checked_eq_ok hfound
  have hmem : e.toNewEntity ∈ (found.anchor base filePath).entities :=
    hentities ▸ List.mem_map_of_mem he
  obtain ⟨e', -, heq⟩ := List.mem_map.mp hmem
  exact congrArg NewEntity.filePath heq.symm

/-- Indexing a content leaves the other files alone. -/
theorem KnownEnd.agreeOn
    (h : KnownEnd base options extractor filePath content language db o after) :
    db.tables.AgreeOn (· != filePath) after.tables := by
  cases h with
  | skipped | failed => exact .refl _
  | replaced _ _ hfound _ _ hreplaced hentities =>
    exact hreplaced.agreeOn (filePath_of_checked hfound hentities)

/-- Indexing a file leaves the other files alone. -/
theorem indexFile_agreeOn (hbase : disk.base.IsPlain)
    (h : (indexFile disk options extractor path).runOn db = (.ok o, after)) :
    o.filePath = disk.base.normalize path ∧
      db.tables.AgreeOn (· != disk.base.normalize path) after.tables := by
  rcases indexFile_cases hbase options extractor path with
    ⟨o', hpath, -, hindex⟩ | ⟨content, language, -, hindex⟩
  · rw [hindex] at h
    cases h
    exact ⟨hpath, .refl _⟩
  · rw [hindex] at h
    have hend := indexKnown_eq_ok h
    exact ⟨hend.filePath_eq, hend.agreeOn⟩

/-! ### One file after another -/

/-- **Frame rule of a sweep.** What each call leaves behind is still there after the calls for the
files that follow, if it is about the rows and the record of its own file only. -/
theorem mapM_indexFile_eq_ok {Q : Path → IndexOutcome → Tables → Tables → Prop}
    (hbase : disk.base.IsPlain)
    (hstep : ∀ (p : Path) (o : IndexOutcome) (db after : Database),
      (indexFile disk options extractor p.text).runOn db = (.ok o, after) →
      Q p o db.tables after.tables)
    (hframe : ∀ (p : Path) (o : IndexOutcome) (t₀ t t' t₁ : Tables),
      t₀.AgreeOn (· == disk.base.normalize p.text) t →
      t'.AgreeOn (· == disk.base.normalize p.text) t₁ → Q p o t t' → Q p o t₀ t₁)
    {ps : List Path} (hdistinct : (ps.map fun p => disk.base.normalize p.text).Nodup)
    {os : List IndexOutcome}
    (h : (ps.mapM fun p => indexFile disk options extractor p.text).runOn db = (.ok os, after)) :
    os.map (·.filePath) = ps.map (fun p => disk.base.normalize p.text) ∧
      List.Forall₂ (fun p o => Q p o db.tables after.tables) ps os ∧
      db.tables.AgreeOn (fun file => !(ps.map fun p => disk.base.normalize p.text).contains file)
        after.tables := by
  induction ps generalizing db os with
  | nil =>
    rw [List.mapM_nil, runOn_pure] at h
    cases h
    exact ⟨rfl, .nil, .refl _⟩
  | cons p ps ih =>
    obtain ⟨o, mid, rest, hfirst, hrest, rfl⟩ := runOn_mapM_cons_eq_ok h
    rw [List.map_cons, List.nodup_cons] at hdistinct
    obtain ⟨hpath, hothers⟩ := indexFile_agreeOn hbase hfirst
    obtain ⟨hpaths, hall, hafter⟩ := ih hdistinct.2 hrest
    refine ⟨by rw [List.map_cons, List.map_cons, hpath, hpaths], .cons ?_ ?_, ?_⟩
    · -- the files that follow are other ones
      refine hframe p o _ _ _ _ (.refl _) (hafter.on ?_) (hstep p o db mid hfirst)
      rw [Bool.not_eq_true', ← Bool.not_eq_true, List.contains_iff_mem]
      exact hdistinct.1
    · have hne : ∀ q ∈ ps, (disk.base.normalize q.text != disk.base.normalize p.text) = true :=
        fun q hq => bne_iff_ne.mpr fun heq => hdistinct.1 (List.mem_map.mpr ⟨q, hq, heq⟩)
      exact ((List.forall₂_and_left _ _).mpr ⟨hne, hall⟩).imp fun q o' hQ =>
        hframe q o' _ _ _ _ (hothers.on hQ.1) (.refl _) hQ.2
    · refine (hothers.mono fun file hfile => ?_).trans (hafter.mono fun file hfile => ?_)
      · rw [List.map_cons, List.contains_cons, Bool.not_or, Bool.and_eq_true] at hfile
        exact hfile.1
      · rw [List.map_cons, List.contains_cons, Bool.not_or, Bool.and_eq_true] at hfile
        exact hfile.2

end Indexer

end CodeAtlas
