import CodeAtlas.Proofs.Index.SyncExact

/-!
# Sweeps of what has not changed

With hashes checked, a sweep right after another one of the same tree does nothing: what was indexed
is skipped now, errors are errors again, and nothing is stale any more. For this, what the store
holds of a file must be read back when the file is skipped. The first sweep does not see to that where
it adds to rows under a path that the ledger does not have, but every row that the library wrote is
read back.

* `Tables.Readable`                   the rows of a file are read back, where it matters;
* `Settled`                           a file that a further call only looks at;
* `Indexer.indexFile_settled`         each file of a sweep is settled after it;
* `Indexer.sync_twice_of_readable`    the second sweep changes nothing, whatever the store;
* `Indexer.sync_twice`                so it does in every store that the library made.
-/

namespace CodeAtlas

open StoreM

/-- what a call does with a file that was just indexed -/
def IndexAction.repeated : IndexAction → IndexAction
  | .error => .error
  | _ => .skipped

/-- what a sweep reports that follows another one: nothing happens, and errors are errors again -/
structure SyncReport.Repeats (second first : SyncReport) : Prop where
  created : second.count .created = 0
  updated : second.count .updated = 0
  deleted : second.deleted = []
  skipped : second.count .skipped =
    first.count .created + first.count .updated + first.count .skipped
  errors : second.count .error = first.count .error

/-- Every row of a file is read back, if the ledger does not have the file. -/
def Tables.Readable (path : String) (t : Tables) : Prop :=
  ¬ t.Ledgered path → ∀ r ∈ t.entityRows, r.filePath = path → ∃ e, r.read = .ok e

/-- Rows that the calls of the library wrote are read back. -/
theorem Tables.Sound.readable {t : Tables} {n : Nat} (h : t.Sound n) (path : String) :
    t.Readable path :=
  fun _ _ hr _ => h.exists_read hr

theorem Tables.Readable.of_agreeOn {path : String} {t t' : Tables} (h : t.Readable path)
    (hagree : t.AgreeOn (· == path) t') : t'.Readable path := by
  intro hnot r hr hpath
  have hfilter : r ∈ t'.entityRows.filter (·.filePath == path) :=
    List.mem_filter.mpr ⟨hr, beq_iff_eq.mpr hpath⟩
  rw [hagree.entityRows] at hfilter
  exact h (fun hledgered => hnot (hagree.ledgered_iff.mpr hledgered)) r
    (List.mem_filter.mp hfilter).1 hpath

/-- On tables that say the same of a file, a further call gives an outcome of the same kind and
changes nothing. -/
def Settled (disk : Disk) (options : IndexerOptions) (extractor : Extractor) (path : String)
    (o : IndexOutcome) (t : Tables) : Prop :=
  ∀ db : Database, t.AgreeOn (· == disk.base.normalize path) db.tables →
    ∃ o', (Indexer.indexFile disk options extractor path).runOn db = (.ok o', db) ∧
      o'.filePath = o.filePath ∧ o'.action = o.action.repeated

theorem Replaced.exists_byFile {filePath hash : String} {known : Bool} {es : List Entity}
    {t t' : Tables} (h : Replaced filePath hash known es t t')
    (hkept : known = false → ∀ r ∈ t.entityRows, r.filePath = filePath → ∃ e, r.read = .ok e) :
    ∃ entities, Entities.byFile filePath t' = .ok entities := by
  refine Entities.exists_byFile_of_read h.after fun r hr hpath => ?_
  rw [h.entityRows, List.mem_append] at hr
  -- a row of the path that was there before is kept only if the file was not known
  rcases hr with hr | hr
  · cases known with
    | true =>
      rw [if_pos rfl, List.mem_filter, bne_iff_ne] at hr
      exact absurd hpath hr.2
    | false => exact hkept rfl r hr hpath
  · obtain ⟨e, -, rfl⟩ := List.mem_map.mp hr
    exact ⟨_, EntityRow.read_ofEntity e⟩

theorem Settled.of_agreeOn {disk : Disk} {options : IndexerOptions} {extractor : Extractor}
    {path : String} {o : IndexOutcome} {t t' : Tables}
    (h : Settled disk options extractor path o t)
    (hagree : t.AgreeOn (· == disk.base.normalize path) t') :
    Settled disk options extractor path o t' :=
  fun db hdb => h db (hagree.trans hdb)

namespace Indexer

variable {db after : Database} {disk : Disk} {options : IndexerOptions} {extractor : Extractor}
  {base : Path} {filePath content language path root : String} {o : IndexOutcome}
  {report : SyncReport}

theorem KnownEnd.settled (hcheck : options.useHashCheck = true)
    (hreadable : db.tables.Readable filePath)
    (h : KnownEnd base options extractor filePath content language db o after) {db' : Database}
    (hagree : after.tables.AgreeOn (· == filePath) db'.tables) :
    ∃ o', (indexKnown base options extractor filePath content language).runOn db' =
        (.ok o', db') ∧
      o'.filePath = filePath ∧ o'.action = o.action.repeated := by
  have hskipped : ∀ {r : Option FileRecord} {entities : List Entity},
      FileLedger.find? filePath db'.tables = .ok r → isUnchanged options r content = true →
      Entities.byFile filePath db'.tables = .ok entities →
      (indexKnown base options extractor filePath content language).runOn db' =
        (.ok { filePath, action := .skipped, language := some language, entities }, db') := by
    intro r entities hfind hsame hread
    rw [indexKnown_of_unchanged hfind hsame, hread]
    rfl
  cases h with
  | skipped hprevious hsame hread =>
    exact ⟨_, hskipped (FileLedger.find?_of_agreeOn hagree hprevious) hsame
      (Entities.byFile_of_agreeOn hagree hread), rfl, rfl⟩
  | failed hprevious hchanged hfound =>
    exact ⟨_, indexKnown_of_failing (FileLedger.find?_of_agreeOn hagree hprevious) hchanged hfound,
      rfl, rfl⟩
  | @replaced previous x o after hprevious _ _ _ haction hreplaced _ =>
    obtain ⟨r, hfind, hhash⟩ := hreplaced.exists_find?
    have hsame : isUnchanged options (some r) content = true :=
      isUnchanged_eq_true.mpr ⟨hcheck, r, rfl, hhash⟩
    have hkept : previous.isSome = false →
        ∀ row ∈ db.tables.entityRows, row.filePath = filePath → ∃ e, row.read = .ok e := by
      intro hnone
      rw [Option.isSome_eq_false_iff, Option.isNone_iff_eq_none] at hnone
      subst hnone
      exact hreadable (FileLedger.not_ledgered_of_find? hprevious)
    obtain ⟨entities, hread⟩ := hreplaced.exists_byFile hkept
    -- now the ledger has the hash, so the content is skipped and all of its rows are read
    refine ⟨_, hskipped (FileLedger.find?_of_agreeOn hagree hfind) hsame
      (Entities.byFile_of_agreeOn hagree hread), rfl, ?_⟩
    rw [haction]
    cases previous.isSome <;> rfl

/-- A file is settled after a call for it that did not fail. -/
theorem indexFile_settled (hbase : disk.base.IsPlain) (hcheck : options.useHashCheck = true)
    (hreadable : db.tables.Readable (disk.base.normalize path))
    (h : (indexFile disk options extractor path).runOn db = (.ok o, after)) :
    Settled disk options extractor path o after.tables := by
  intro db' hagree
  rcases indexFile_cases hbase options extractor path with
    ⟨o', hpath, haction, hindex⟩ | ⟨content, language, -, hindex⟩
  · rw [hindex] at h ⊢
    cases h
    exact ⟨o, rfl, rfl, by rw [haction]; rfl⟩
  · rw [hindex] at h ⊢
    have hend := indexKnown_eq_ok h
    obtain ⟨o', hrun, hpath, haction⟩ := hend.settled hcheck hreadable hagree
    exact ⟨o', hrun, hpath.trans hend.filePath_eq.symm, haction⟩

/-- Files that are settled are passed over one after another. -/
theorem mapM_indexFile_of_settled {ps : List Path} {os : List IndexOutcome}
    (h : List.Forall₂ (fun p o => Settled disk options extractor p.text o db.tables) ps os) :
    ∃ os', (ps.mapM fun p => indexFile disk options extractor p.text).runOn db = (.ok os', db) ∧
      os'.map (·.filePath) = os.map (·.filePath) ∧
      os'.map (·.action) = os.map (·.action.repeated) := by
  induction h with
  | nil => exact ⟨[], rfl, rfl, rfl⟩
  | cons hsettled _ ih =>
    obtain ⟨o', hfirst, hpath, haction⟩ := hsettled db (.refl _)
    obtain ⟨os', hrest, hpaths, hactions⟩ := ih
    refine ⟨o' :: os', runOn_mapM_cons_ok hfirst hrest, ?_, ?_⟩
    · rw [List.map_cons, List.map_cons, hpath, hpaths]
    · rw [List.map_cons, List.map_cons, haction, hactions]

theorem isSome_files_of_ledgered {test : String → Bool} {paths : List String}
    (h : (ledgered test).runOn db = (.ok paths, after)) : db.tables.files.isSome = true := by
  obtain ⟨records, mid, hquery, -⟩ := runOn_bind_eq_ok.mp h
  exact (FileLedger.all_eq_ok.mp (Prod.mk.inj hquery).1).1

theorem exists_ledgered (h : db.tables.files.isSome = true) (test : String → Bool) :
    ∃ paths, (ledgered test).runOn db = (.ok paths, db) :=
  ⟨_, runOn_bind_ok (runOn_query_ok (FileLedger.all_eq_ok.mpr ⟨h, rfl⟩))⟩

/-- A sweep that finds every file of the ledger below its directory removes none. -/
theorem sync_eq_of_all_found {mid : Database} {os : List IndexOutcome}
    (hindex : ((discover disk (disk.base.resolve root) options.exclude).mapM fun p =>
      indexFile disk options extractor p.text).runOn db = (.ok os, mid))
    (hfiles : mid.tables.files.isSome = true)
    (hfound : ∀ path, mid.tables.Ledgered path → (disk.base.resolve root).isBelow path = true →
      path ∈ os.map (·.filePath)) :
    (sync disk options extractor root).runOn db = (.ok ⟨os, []⟩, mid) := by
  obtain ⟨stale, hstale⟩ := exists_ledgered hfiles fun path =>
    (disk.base.resolve root).isBelow path && !(os.map (·.filePath)).contains path
  obtain ⟨-, hmem, -⟩ := ledgered_eq_ok hstale
  have hnone : stale = [] := by
    rw [List.eq_nil_iff_forall_not_mem]
    intro path hpath
    obtain ⟨hledgered, htest⟩ := (hmem path).mp hpath
    rw [Bool.and_eq_true, Bool.not_eq_true', ← Bool.not_eq_true, List.contains_iff_mem] at htest
    exact htest.2 (hfound path hledgered htest.1)
  subst hnone
  exact (runOn_bind_ok hindex).trans (runOn_bind_ok hstale)

theorem count_of_repeated (first second : SyncReport)
    (h : second.outcomes.map (·.action) = first.outcomes.map (·.action.repeated)) :
    second.count .created = 0 ∧ second.count .updated = 0 ∧
      second.count .skipped =
        first.count .created + first.count .updated + first.count .skipped ∧
      second.count .error = first.count .error := by
  have hcount : ∀ (r : SyncReport) (action : IndexAction),
      r.count action = (r.outcomes.map (·.action)).count action := by
    intro r action
    rw [SyncReport.count, List.count, List.countP_map, List.countP_eq_length_filter]
    rfl
  have hrepeated : second.outcomes.map (·.action) =
      (first.outcomes.map (·.action)).map IndexAction.repeated := by
    rw [h, List.map_map]
    rfl
  simp only [hcount, hrepeated]
  induction first.outcomes.map (·.action) with
  | nil => decide
  | cons action actions ih =>
    obtain ⟨hcreated, hupdated, hskipped, herror⟩ := ih
    simp only [List.map_cons, List.count_cons, hcreated, hupdated, hskipped, herror]
    cases action <;> simp [IndexAction.repeated] <;> omega

/-- With hashes checked, a sweep right after one that did not fail, of the same tree, does not fail
either and leaves the database as it is. Whatever the store was before the first sweep, this holds if
the rows of each file that is found are read back, unless the ledger has the file. -/
theorem sync_twice_of_readable {first : SyncReport} (hbase : disk.base.IsPlain)
    (hcheck : options.useHashCheck = true)
    (hdistinct : ((discover disk (disk.base.resolve root) options.exclude).map fun p =>
      disk.base.normalize p.text).Nodup)
    (hreadable : ∀ p ∈ discover disk (disk.base.resolve root) options.exclude,
      db.tables.Readable (disk.base.normalize p.text))
    (hrun : (sync disk options extractor root).runOn db = (.ok first, after)) :
    ∃ second, (sync disk options extractor root).runOn after = (.ok second, after) ∧
      second.Repeats first := by
  obtain ⟨mid, stale, last, hindex, hstale, hremove⟩ := sync_eq_ok hrun
  obtain ⟨hpaths, hall, -⟩ := mapM_indexFile_eq_ok
    (Q := fun p o t t' => t.Readable (disk.base.normalize p.text) →
      Settled disk options extractor p.text o t') hbase
    (fun p o db after hfile hread => indexFile_settled hbase hcheck hread hfile)
    (fun p o t₀ t t' t₁ hbefore hafter hQ hread =>
      (hQ (hread.of_agreeOn hbefore)).of_agreeOn hafter)
    hdistinct hindex
  obtain ⟨rfl, hmem, -⟩ := ledgered_eq_ok hstale
  have hremoved := (removeFiles_eq_ok hremove).1
  -- what was found is not stale, so it is still settled in the end
  have hkept : ∀ p ∈ discover disk (disk.base.resolve root) options.exclude,
      disk.base.normalize p.text ∉ stale ∧ db.tables.Readable (disk.base.normalize p.text) := by
    intro p hp
    refine ⟨fun hgone => ?_, hreadable p hp⟩
    have htest := ((hmem _).mp hgone).2
    have hpresent : disk.base.normalize p.text ∈ first.outcomes.map (·.filePath) :=
      hpaths ▸ List.mem_map_of_mem hp
    rw [List.contains_iff_mem.mpr hpresent, Bool.not_true, Bool.and_false] at htest
    cases htest
  have hsettled : List.Forall₂ (fun p o => Settled disk options extractor p.text o after.tables)
      (discover disk (disk.base.resolve root) options.exclude) first.outcomes :=
    ((List.forall₂_and_left _ _).mpr ⟨hkept, hall⟩).imp fun p o h =>
      (h.2 h.1.2).of_agreeOn (hremoved.agreeOn_of_notMem h.1.1)
  obtain ⟨os, hindex', hpaths', hactions⟩ := mapM_indexFile_of_settled hsettled
  -- and what was stale is no longer in the ledger
  have hrun' := sync_eq_of_all_found hindex'
    (hremoved.fileTable.trans (isSome_files_of_ledgered hstale)) fun path hledgered hbelow => by
      obtain ⟨hbefore, hnot⟩ := (ledgered_of_removed hremoved).mp hledgered
      by_contra hlost
      rw [hpaths'] at hlost
      refine hnot ((hmem path).mpr ⟨hbefore, ?_⟩)
      rw [hbelow, Bool.true_and]
      exact not_contains hlost
  obtain ⟨hcreated, hupdated, hskipped, herror⟩ := count_of_repeated first ⟨os, []⟩ hactions
  exact ⟨⟨os, []⟩, hrun', hcreated, hupdated, rfl, hskipped, herror⟩

/-- **A second sweep does nothing.** In every state of every script, with hashes checked, a sweep right
after one that did not fail, of the same tree, does not fail either and leaves the database as it is:
it skips what the first one indexed or skipped, reports the same errors again and deletes nothing. -/
theorem sync_twice {migrated : Bool} {p : Script} {first : SyncReport}
    (hreached : db ∈ p.visited (Database.opened migrated)) (hbase : disk.base.IsPlain)
    (hcheck : options.useHashCheck = true)
    (hdistinct : ((discover disk (disk.base.resolve root) options.exclude).map fun p =>
      disk.base.normalize p.text).Nodup)
    (hrun : (sync disk options extractor root).runOn db = (.ok first, after)) :
    ∃ second, (sync disk options extractor root).runOn after = (.ok second, after) ∧
      second.Repeats first :=
  have hsound := (p.visited_sound (Database.opened_sound migrated) db hreached).tables
  sync_twice_of_readable hbase hcheck hdistinct (fun _ _ => hsound.readable _) hrun

/-- A second sweep of two files that the first one created, in a store that was just migrated. -/
theorem sync_twice_created : ∃ (first second : SyncReport) (after : Database),
    (linkSweep.run bothTree).runOn (Database.opened true) = (.ok first, after) ∧
    (linkSweep.run bothTree).runOn after = (.ok second, after) ∧ second.Repeats first ∧
    second.count .skipped + second.count .error = 2 := by
  have hplain : bothTree.IsPlain :=
    ⟨isPlainName_callee, trivial, isPlainName_caller, trivial, trivial⟩
  obtain ⟨first, after, hrun, -⟩ := Sweep.run_shows_order (s := linkSweep) hplain
  have hpaths := linkSweep_paths.2.2
  have hnormal : (linkSweep.paths bothTree).map (fun p => linkSweep.base.normalize p.text) =
      ["/lib.ts", "/main.ts"] := by
    rw [← hpaths]
    exact List.map_congr_left fun p hp => Path.normalize_text (Sweep.mem_paths hplain hp).1
  have hreached : Database.opened true ∈ (Script.call .migrate).visited (Database.opened false) := by
    have hmem := (Script.call .migrate).final_mem_visited (Database.opened false)
    have hend : (Script.call .migrate).run.runOn (Database.opened false) =
        (.ok (), { tables := .migrated }) := runOn_discard_ok Migrations.run_runOn_empty
    rwa [hend, ← Database.opened_true] at hmem
  obtain ⟨second, hsecond, hrepeats⟩ :=
    sync_twice hreached linkSweep.plain rfl (hnormal ▸ by decide) hrun
  refine ⟨first, second, after, hrun, hsecond, hrepeats, ?_⟩
  obtain ⟨mid, _, _, hindex, -, -⟩ := sync_eq_ok hrun
  have hfiles := (mapM_indexFile_exact linkSweep.plain
    (fun p hp => (Sweep.mem_paths hplain hp).1) (hpaths ▸ by decide) hindex).1
  have hlength := congrArg List.length (hfiles.trans hpaths)
  rw [List.length_map, ← first.count_add, ← hrepeats.skipped, ← hrepeats.errors] at hlength
  exact hlength

end Indexer

end CodeAtlas
