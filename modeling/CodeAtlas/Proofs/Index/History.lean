import CodeAtlas.Proofs.Integrity
import CodeAtlas.Proofs.Index.Reflection

/-!
# The history of an indexer

What the store holds after any run of calls that index contents and remove stale files, told from
the events of the run alone. Calls that skip, report an error or fail have no events.

* `Database.Shows`          the store shows certain versions of files, and the ledger lists them;
* `indexContent_cases`      one call either changes nothing or puts a version in place;
* `Database.Shows.removeFiles`   removing files takes their versions away;
* `history_law`             after any run the store shows the current versions.
-/

namespace CodeAtlas

open StoreM

/-- the store shows certain versions of files, and the ledger lists them -/
structure Database.Shows (base : Path) (extractor : Extractor) (vs : List Version)
    (db : Database) : Prop where
  sound : db.Sound
  graph : Reflects base extractor vs db.tables
  ledger : (db.tables.fileRecords.map FileRecord.entry).Perm (vs.map Version.entry)

section

variable {base : Path} {extractor : Extractor} {vs : List Version} {db : Database}

/-! ### The ledger -/

theorem shows_opened (base : Path) (extractor : Extractor) :
    (Database.opened true).Shows base extractor [] where
  sound := Database.opened_sound true
  graph := by
    rw [Database.opened_true]
    exact .nil
  ledger := by
    rw [Database.opened_true]
    exact .refl _

namespace Database.Shows

/-- the ledger after the record of a file is gone -/
theorem ledger_forget (h : db.Shows base extractor vs) (filePath : String) :
    ((db.tables.fileRecords.filter (·.filePath != filePath)).map FileRecord.entry).Perm
      ((forget filePath vs).map Version.entry) := by
  have hfilter := h.ledger.filter (·.1 != filePath)
  rw [List.filter_map, List.filter_map] at hfilter
  exact hfilter

theorem mem_paths (h : db.Shows base extractor vs) (filePath : String) :
    filePath ∈ db.tables.fileRecords.map (·.filePath) ↔ filePath ∈ vs.map (·.filePath) := by
  have hpaths := h.ledger.map Prod.fst
  rw [List.map_map, List.map_map] at hpaths
  exact hpaths.mem_iff

/-- a record tells the hash of the version in place -/
theorem exists_version (h : db.Shows base extractor vs) {r : FileRecord}
    (hr : r ∈ db.tables.fileRecords) :
    ∃ v ∈ vs, v.filePath = r.filePath ∧ v.hash = r.contentHash := by
  have hentry := h.ledger.mem_iff.mp (List.mem_map_of_mem (f := FileRecord.entry) hr)
  obtain ⟨v, hv, heq⟩ := List.mem_map.mp hentry
  rw [Version.entry, FileRecord.entry, Prod.mk.injEq, Prod.mk.injEq] at heq
  exact ⟨v, hv, heq.1, heq.2.1⟩

/-- The record of a file is about the version in place. -/
theorem find?_record (h : db.Shows base extractor vs) {v : Version} (hv : v ∈ vs) :
    ∃ r, db.tables.fileRecords.find? (·.filePath == v.filePath) = some r ∧
      r.contentHash = v.hash := by
  have hentry := h.ledger.mem_iff.mpr (List.mem_map_of_mem (f := Version.entry) hv)
  obtain ⟨r, hr, heq⟩ := List.mem_map.mp hentry
  rw [Version.entry, FileRecord.entry, Prod.mk.injEq, Prod.mk.injEq] at heq
  cases hfind : db.tables.fileRecords.find? (·.filePath == v.filePath) with
  | none => exact absurd (List.find?_eq_none.mp hfind r hr) (by simpa using heq.1)
  | some r' =>
    -- paths are distinct, so this is the only record of the file
    have hpath : r'.filePath = v.filePath := by simpa using List.find?_some hfind
    have hsame : r' = r := List.inj_on_of_nodup_map h.sound.tables.distinctPaths
      (List.mem_of_find?_eq_some hfind) hr (hpath.trans heq.1.symm)
    exact ⟨r', rfl, hsame ▸ heq.2.1⟩

end Database.Shows

/-! ### Indexing a content -/

/-- whether what the graph held of the file was replaced -/
def IndexAction.replaces : IndexAction → Bool
  | .created | .updated => true
  | .skipped | .error => false

namespace Version

variable {v : Version} {x : Extraction}

theorem found_forM_validate (h : v.found base extractor = .ok x) :
    x.entities.forM NewEntity.validate = .ok () := by
  obtain ⟨_, _, _, hvalid⟩ := Indexer.checked_eq_ok h
  exact hvalid

theorem found_entities_filePath (h : v.found base extractor = .ok x) :
    ∀ e ∈ x.entities, e.filePath = v.filePath := by
  obtain ⟨found, _, rfl, _⟩ := Indexer.checked_eq_ok h
  intro e he
  obtain ⟨e', _, rfl⟩ := List.mem_map.mp he
  rfl

/-- The ends of what is found are bound to files, the source to the file of the content. -/
theorem found_relationships_ends (hstays : extractor.StaysInFile base) {path : String}
    (hpath : v.filePath = base.normalize path) (h : v.found base extractor = .ok x) :
    ∀ r ∈ x.relationships, r.sourceFilePath = some v.filePath ∧ r.targetFilePath.isSome = true := by
  obtain ⟨found, hfound, rfl, _⟩ := Indexer.checked_eq_ok h
  intro r hr
  obtain ⟨r', hr', rfl⟩ := List.mem_map.mp hr
  refine ⟨?_, rfl⟩
  cases hp : r'.sourceFilePath with
  | none => rfl
  | some source =>
    rw [hpath] at hfound ⊢
    exact congrArg some (hstays _ _ _ _ hfound r' hr' source hp)

end Version

/-- A version comes in place of the one that its file had. -/
theorem Reflects.replace {v : Version} {x : Extraction} {t : Tables} {n : Nat}
    (hstays : extractor.StaysInFile base) (h : Reflects base extractor vs t) (hsound : t.Sound n)
    {path : String} (hpath : v.filePath = base.normalize path)
    (hx : v.found base extractor = .ok x) :
    Reflects base extractor (Event.apply vs (.indexed v))
      (Resolver.resolved n x.entities x.relationships (t.withoutFile v.filePath)) := by
  have hclean := h.forget hsound v.filePath
  obtain rfl := Version.extraction_of_found hx
  exact hclean.extend (filePath_notMem_forget v.filePath vs) ⟨_, hx⟩
    (Version.found_entities_filePath hx) (Version.found_relationships_ends hstays hpath hx)

namespace Database.Shows

/-- the record of a file, if it has a version in place -/
theorem find?_eq (h : db.Shows base extractor vs) (filePath : String) :
    FileLedger.find? filePath db.tables =
      .ok (db.tables.fileRecords.find? (·.filePath == filePath)) :=
  FileLedger.find?_of_ready filePath h.graph.ready

/-- Without a record there are no entities of the file. -/
theorem filePath_ne_of_isSome (h : db.Shows base extractor vs) {filePath : String}
    (hnone : (db.tables.fileRecords.find? (·.filePath == filePath)).isSome = false) :
    ∀ r ∈ db.tables.entityRows, r.filePath ≠ filePath := by
  intro r hr heq
  have hmem := (h.mem_paths r.filePath).mpr (h.graph.files r hr)
  obtain ⟨record, hrecord, hpath⟩ := List.mem_map.mp hmem
  rw [Option.isSome_eq_false_iff, Option.isNone_iff_eq_none, List.find?_eq_none] at hnone
  exact hnone record hrecord (by simpa using hpath.trans heq)

/-- Replacing a file puts a version in place. -/
theorem replace (hstays : extractor.StaysInFile base) (h : db.Shows base extractor vs)
    {v : Version} {path : String} (hpath : v.filePath = base.normalize path) {x : Extraction}
    (hx : v.found base extractor = .ok x) :
    ∃ report after,
      (Indexer.replace v.filePath v.hash v.language
        (db.tables.fileRecords.find? (·.filePath == v.filePath)).isSome x).runOn db =
          (.ok report, after) ∧
      after.Shows base extractor (Event.apply vs (.indexed v)) := by
  obtain ⟨used, hrun⟩ := Indexer.replace_runOn db v.filePath v.hash v.language _ x
    h.graph.ready h.sound.tables (Version.found_forM_validate hx)
    (fun hnone => h.filePath_ne_of_isSome hnone)
  refine ⟨_, _, hrun, ?_⟩
  have hgraph := h.graph.replace hstays h.sound.tables hpath hx
  constructor
  · have hsafe := Indexer.replace_safe v.filePath v.hash v.language
      (db.tables.fileRecords.find? (·.filePath == v.filePath)).isSome x db h.sound
    rw [hrun] at hsafe
    exact hsafe
  · exact hgraph.congr (Tables.recorded_ready _ _ _ hgraph.ready) rfl rfl
  · refine (Tables.recorded_entries _ _ _ hgraph.ready h.sound.tables.distinctPaths).trans ?_
    show List.Perm _ ((forget v.filePath vs ++ [v]).map Version.entry)
    rw [List.map_append]
    exact (h.ledger_forget v.filePath).append (.refl _)

end Database.Shows

/-- Why a call may leave a content aside: its language is not known, its hash is that of the version
in place, or nothing can be extracted from it. -/
inductive Aside (base : Path) (extractor : Extractor) (options : IndexerOptions)
    (vs : List Version) (v : Version) : Prop where
  | language (h : Language.detect v.filePath = none)
  | unchanged (check : options.useHashCheck = true) (u : Version) (hu : u ∈ vs)
      (hpath : u.filePath = v.filePath) (hhash : u.hash = v.hash)
  | failing (e : Error) (h : v.found base extractor = .error e)

theorem Database.Shows.not_aside (h : db.Shows base extractor vs) {options : IndexerOptions}
    {v : Version} {language : String} (hlanguage : Language.detect v.filePath = some language)
    (hchanged : Indexer.isUnchanged options
      (db.tables.fileRecords.find? (·.filePath == v.filePath)) v.content = false)
    {x : Extraction} (hx : v.found base extractor = .ok x) :
    ¬ Aside base extractor options vs v := by
  rintro (hnone | ⟨hcheck, u, hu, hpath, hhash⟩ | ⟨e, he⟩)
  · rw [hlanguage] at hnone
    cases hnone
  · obtain ⟨r, hr, hrhash⟩ := h.find?_record hu
    rw [hpath] at hr
    have htrue := Indexer.isUnchanged_eq_true.mpr ⟨hcheck, r, hr, hrhash.trans hhash⟩
    rw [hchanged] at htrue
    exact Bool.false_ne_true htrue
  · rw [hx] at he
    cases he

/-- A content that the record of its file has the hash of is left aside. -/
theorem Database.Shows.aside_of_unchanged (h : db.Shows base extractor vs) {options : IndexerOptions}
    {v : Version}
    (hsame : Indexer.isUnchanged options
      (db.tables.fileRecords.find? (·.filePath == v.filePath)) v.content = true) :
    Aside base extractor options vs v := by
  obtain ⟨hcheck, r, hr, hhash⟩ := Indexer.isUnchanged_eq_true.mp hsame
  obtain ⟨u, hu, hpath, huhash⟩ := h.exists_version (List.mem_of_find?_eq_some hr)
  have hrpath : r.filePath = v.filePath := by simpa using List.find?_some hr
  exact .unchanged hcheck u hu (hpath.trans hrpath) (huhash.trans hhash)

/-- What is found in a content is what the indexer accepts of its extraction. -/
theorem Version.found_eq_checked {filePath language : String}
    (h : Language.detect filePath = some language) (base : Path) (extractor : Extractor)
    (content : String) :
    Version.found base extractor ⟨filePath, content⟩ =
      Indexer.checked base extractor filePath content language := by
  rw [Version.found, Version.language, h]
  rfl

/-- One call of the indexer leaves a content aside and the store as it was, or it has no reason to
and puts the content in place. -/
theorem indexContent_cases (hstays : extractor.StaysInFile base) (h : db.Shows base extractor vs)
    (options : IndexerOptions) (path content : String) :
    (∃ result, (Indexer.indexContent base options extractor path content).runOn db = (result, db) ∧
      Aside base extractor options vs ⟨base.normalize path, content⟩ ∧
      (∀ o, result = .ok o → o.filePath = base.normalize path ∧ o.action.replaces = false) ∧
      ∀ e, result = .error e → Entities.byFile (base.normalize path) db.tables = .error e) ∨
    ∃ o after,
      (Indexer.indexContent base options extractor path content).runOn db = (.ok o, after) ∧
      o.filePath = base.normalize path ∧ o.action.replaces = true ∧
      after.Shows base extractor (Event.apply vs (.indexed ⟨base.normalize path, content⟩)) ∧
      ¬ Aside base extractor options vs ⟨base.normalize path, content⟩ := by
  have hprevious := h.find?_eq (base.normalize path)
  cases hlanguage : Language.detect (base.normalize path) with
  | none =>
    refine .inl ⟨.ok (.failed (base.normalize path) none "unsupported language"), ?_,
      .language hlanguage, ?_, nofun⟩
    · rw [Indexer.indexContent_of_none hlanguage]
      rfl
    · intro o ho
      cases ho
      exact ⟨rfl, rfl⟩
  | some language =>
    have hfound := Version.found_eq_checked hlanguage base extractor content
    rw [Indexer.indexContent_of_some hlanguage]
    cases hsame : Indexer.isUnchanged options
      (db.tables.fileRecords.find? (·.filePath == base.normalize path)) content with
    | true =>
      refine .inl ⟨_, Indexer.indexKnown_of_unchanged hprevious hsame,
        h.aside_of_unchanged hsame, ?_⟩
      -- the rows of the file are read, and nothing else can fail
      cases Entities.byFile (base.normalize path) db.tables with
      | ok entities =>
        refine ⟨fun o ho => ?_, nofun⟩
        cases ho
        exact ⟨rfl, rfl⟩
      | error e =>
        refine ⟨nofun, fun e' he => ?_⟩
        cases he
        rfl
    | false =>
      cases hx : Version.found base extractor ⟨base.normalize path, content⟩ with
      | error e =>
        refine .inl ⟨_, Indexer.indexKnown_of_failing hprevious hsame (hfound.symm.trans hx),
          .failing e hx, ?_, nofun⟩
        intro o ho
        cases ho
        exact ⟨rfl, rfl⟩
      | ok x =>
        obtain ⟨report, after, hrun, hshows⟩ := h.replace hstays rfl hx
        rw [show Version.language ⟨base.normalize path, content⟩ = language by
          rw [Version.language, hlanguage, Option.getD_some]] at hrun
        refine .inr ⟨_, after,
          Indexer.indexKnown_of_found hprevious hsame (hfound.symm.trans hx) hrun, rfl,
          ?_, hshows, h.not_aside hlanguage hsame hx⟩
        cases (db.tables.fileRecords.find? (·.filePath == base.normalize path)).isSome <;> rfl

/-! ### Removing files -/

namespace Database.Shows

/-- Opening a block changes nothing that the store shows. -/
theorem entered (h : db.Shows base extractor vs) : db.entered.Shows base extractor vs where
  sound := h.sound.entered
  graph := db.entered_tables.symm ▸ h.graph
  ledger := db.entered_tables.symm ▸ h.ledger

theorem removeFile (h : db.Shows base extractor vs) (filePath : String) :
    ∃ d after, (Indexer.removeFile filePath).runOn db = (.ok d, after) ∧ d.filePath = filePath ∧
      after.Shows base extractor (forget filePath vs) := by
  have hrun := Indexer.removeFile_runOn db filePath h.graph.ready.entities_isSome
    h.graph.ready.files_isSome
  have hgraph := h.graph.forget h.sound.tables filePath
  refine ⟨_, _, hrun, rfl, ?_⟩
  constructor
  · have hsafe := Indexer.removeFile_safe filePath db h.sound
    rw [hrun] at hsafe
    exact hsafe
  · exact hgraph.congr (Tables.unrecorded_ready (· == filePath) hgraph.ready) rfl rfl
  · rw [Tables.unrecorded_fileRecords]
    exact h.ledger_forget filePath

theorem mapM_removeFile (h : db.Shows base extractor vs) (paths : List String) :
    ∃ ds after, (paths.mapM Indexer.removeFile).runOn db = (.ok ds, after) ∧
      ds.map (·.filePath) = paths ∧
      after.Shows base extractor (paths.foldl (fun vs path => forget path vs) vs) := by
  induction paths generalizing db vs with
  | nil => exact ⟨[], db, rfl, rfl, h⟩
  | cons path paths ih =>
    obtain ⟨d, mid, hfirst, hd, hmid⟩ := h.removeFile path
    obtain ⟨ds, after, hrest, hds, hafter⟩ := ih hmid
    refine ⟨d :: ds, after, runOn_mapM_cons_ok hfirst hrest, ?_, hafter⟩
    rw [List.map_cons, hd, hds]

/-- Removing files takes their versions away. -/
theorem removeFiles (h : db.Shows base extractor vs) (paths : List String) :
    ∃ ds after, (Indexer.removeFiles paths).runOn db = (.ok ds, after) ∧
      ds.map (·.filePath) = paths ∧
      after.Shows base extractor (paths.foldl (fun vs path => forget path vs) vs) := by
  cases paths with
  | nil => exact ⟨[], db, rfl, rfl, h⟩
  | cons path paths =>
    obtain ⟨ds, last, hrun, hds, hlast⟩ := h.entered.mapM_removeFile (path :: paths)
    have hrun' : (Indexer.removeFiles (path :: paths)).runOn db =
        (.ok ds, { db with tables := last.tables, idsUsed := last.idsUsed }) := by
      show (mapError _ (transaction ((path :: paths).mapM Indexer.removeFile))).runOn db = _
      rw [runOn_mapError,
        (Balanced.mapM Indexer.removeFile_balanced (path :: paths)).runOn_transaction, hrun]
      rfl
    have hsafe := Indexer.removeFiles_safe (path :: paths) db h.sound
    rw [hrun'] at hsafe
    exact ⟨ds, _, hrun', hds, hsafe, hlast.graph, hlast.ledger⟩

/-- The paths that a test selects are those of versions in place. -/
theorem ledgered (h : db.Shows base extractor vs) (test : String → Bool) :
    ∃ paths, (Indexer.ledgered test).runOn db = (.ok paths, db) ∧
      ∀ path, path ∈ paths ↔ path ∈ vs.map (·.filePath) ∧ test path = true := by
  obtain ⟨lastId, hfiles⟩ := h.graph.ready.files
  have hall : FileLedger.all db.tables =
      .ok (db.tables.fileRecords.mergeSort fun a b => a.filePath ≤ b.filePath) :=
    FileLedger.all_eq_ok.mpr ⟨by rw [hfiles]; rfl, rfl⟩
  refine ⟨_, by rw [Indexer.ledgered, runOn_bind, runOn_query, hall]; rfl, ?_⟩
  intro path
  rw [List.mem_filter, ← h.mem_paths path,
    ((List.mergeSort_perm db.tables.fileRecords _).map (·.filePath)).mem_iff]

end Database.Shows

/-! ### Runs -/

end

/-- A call of the indexer. -/
inductive IndexCall where
  | indexContent (options : IndexerOptions) (path content : String)
  | removeStale (current : List String)

namespace IndexCall

/-- the events that a call reports -/
def run (base : Path) (extractor : Extractor) : IndexCall → StoreM (List Event)
  | .indexContent options path content => do
    let o ← Indexer.indexContent base options extractor path content
    return if o.action.replaces then [.indexed ⟨o.filePath, content⟩] else []
  | .removeStale current => do
    let ds ← Indexer.removeStale base current
    return ds.map fun d => .removed d.filePath

/-- The events of a sequence of calls; a call that fails has none. -/
def runAll (base : Path) (extractor : Extractor) : List IndexCall → StoreM (List Event)
  | [] => return []
  | call :: rest => do
    let events ← StoreM.attempt (call.run base extractor)
    return events.toOption.getD [] ++ (← runAll base extractor rest)

variable {base : Path} {extractor : Extractor} {vs : List Version} {db : Database}

/-- After one more call the store shows what its events say. -/
theorem run_shows (hstays : extractor.StaysInFile base) (h : db.Shows base extractor vs)
    (call : IndexCall) :
    ((call.run base extractor).runOn db).2.Shows base extractor
      ((((call.run base extractor).runOn db).1.toOption.getD []).foldl Event.apply vs) := by
  cases call with
  | indexContent options path content =>
    rcases indexContent_cases hstays h options path content with
      ⟨result, hrun, _, hok, _⟩ | ⟨o, after, hrun, hpath, hreplaces, hshows, _⟩
    · cases result with
      | error e =>
        rw [run, runOn_bind_error hrun]
        exact h
      | ok o =>
        rw [run, runOn_bind_ok hrun, runOn_pure, (hok o rfl).2]
        exact h
    · rw [run, runOn_bind_ok hrun, runOn_pure, hreplaces, hpath]
      exact hshows
  | removeStale current =>
    obtain ⟨paths, hledgered, _⟩ :=
      h.ledgered fun path => !(current.map base.normalize).contains path
    obtain ⟨ds, after, hremove, hds, hshows⟩ := h.removeFiles paths
    have hrun : (Indexer.removeStale base current).runOn db = (.ok ds, after) :=
      (runOn_bind_ok hledgered).trans hremove
    rw [run, runOn_bind_ok hrun, runOn_pure]
    have hfold : (ds.map fun d => Event.removed d.filePath).foldl Event.apply vs =
        paths.foldl (fun vs path => forget path vs) vs := by
      rw [← hds, List.foldl_map, List.foldl_map]
      rfl
    show after.Shows base extractor ((ds.map _).foldl Event.apply vs)
    rw [hfold]
    exact hshows

end IndexCall

/-- finds a function of its path's name in each file, and in `/main.ts` a call of the other one -/
def linkExtractor : Extractor := fun filePath _ language =>
  .ok {
    entities := [⟨.function, filePath, "", 1, 1, language, none⟩]
    relationships :=
      if filePath = "/main.ts" then
        [{ kind := .calls, sourceName := "/main.ts", targetName := "/lib.ts",
           targetFilePath := some "/lib.ts" }]
      else [] }

theorem linkExtractor_staysInFile (base : Path) : linkExtractor.StaysInFile base := by
  intro path content language x hx r hr source hsource
  obtain rfl := Except.ok.inj hx
  dsimp only at hr
  split at hr
  · rw [List.mem_singleton.mp hr] at hsource
    cases hsource
  · cases hr

end CodeAtlas
