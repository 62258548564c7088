import CodeAtlas.Proofs.Index.SyncExact
import CodeAtlas.Proofs.Script
import CodeAtlas.Proofs.Store.Replay
import CodeAtlas.Proofs.Text.Bytes

/-!
# The history of the ledger

Every state that a run of writes to the ledger visits has a history, the writes in effect there. A
block that fails takes its writes back, and they leave the history with it.

* `Script.kept`, `Script.marks`   the writes of a run that were not taken back, and its states, each
                                  with its history;
* `Script.files_of_mem_marks`     every state holds what its history makes of an empty ledger;
* `Script.ledger_history`         the ledger is a map from paths, with numbers that last.
-/

namespace CodeAtlas

/-! ### Runs -/

/-- the write of a call to the ledger -/
def Operation.ledgerWrite? : Operation → Option LedgerWrite
  | .recordFile filePath contentHash language => some (.record filePath contentHash language)
  | .forgetFile filePath => some (.forget filePath)
  | _ => none

namespace Script

/-- all calls are writes to the ledger -/
def OnLedger : Script → Prop
  | .call op => op.ledgerWrite?.isSome = true
  | .fail _ => True
  | .andThen p q => p.OnLedger ∧ q.OnLedger
  | .recover p => p.OnLedger
  | .block p => p.OnLedger
  | .snapshot p => p.OnLedger

/-- the writes of a run to the ledger that were not taken back -/
def kept : Script → Database → List LedgerWrite
  | .call op, db => if (op.run.runOn db).1.isOk then op.ledgerWrite?.toList else []
  | .fail _, _ => []
  | .andThen p q, db =>
    p.kept db ++
      match p.run.runOn db with
      | (.ok _, mid) => q.kept mid
      | (.error _, _) => []
  | .recover p, db => p.kept db
  | .block p, db => if (p.run.runOn db.entered).1.isOk then p.kept db.entered else []
  | .snapshot p, db => if db.inTransaction then p.kept db else []

/-- the databases that a run visits, each with the writes that are in effect there -/
def marks : Script → List LedgerWrite → Database → List (List LedgerWrite × Database)
  | .call op, log, db => [(log, db), (log ++ (call op).kept db, (op.run.runOn db).2)]
  | .fail _, log, db => [(log, db)]
  | .andThen p q, log, db =>
    p.marks log db ++
      match p.run.runOn db with
      | (.ok _, mid) => q.marks (log ++ p.kept db) mid
      | (.error _, _) => []
  | .recover p, log, db => p.marks log db
  | .block p, log, db =>
    (log, db) :: p.marks log db.entered
      ++ [(log ++ (block p).kept db, ((StoreM.transaction p.run).runOn db).2)]
  | .snapshot p, log, db =>
    (log, db) :: p.marks log (if db.inTransaction then db else db.begin)
      ++ [(log ++ (snapshot p).kept db, ((StoreM.snapshot p.run).runOn db).2)]

/-- Each visited state has its history. -/
theorem map_snd_marks (p : Script) (log : List LedgerWrite) (db : Database) :
    (p.marks log db).map Prod.snd = p.visited db := by
  induction p generalizing log db with
  | call op => rfl
  | fail e => rfl
  | andThen p q ihp ihq =>
    rw [marks, visited, List.map_append, ihp]
    congr 1
    rcases p.run.runOn db with ⟨r, mid⟩
    cases r with
    | ok _ => exact ihq _ mid
    | error e => rfl
  | recover p ih => exact ih log db
  | block p ih =>
    rw [marks, visited, List.map_append, List.map_cons, ih]
    rfl
  | snapshot p ih =>
    rw [marks, visited, List.map_append, List.map_cons, ih]
    rfl

theorem run_balanced (p : Script) : p.run.Balanced := by
  induction p with
  | call op => exact op.run_isProgram.balanced
  | fail e => exact .lift _
  | andThen p q ihp ihq => exact ihp.bind fun _ => ihq
  | recover p ih =>
    intro db
    rw [run, StoreM.runOn_discard]
    exact ih.attempt db
  | block p ih => exact ih.transaction
  | snapshot p ih => exact ih.snapshot

variable {db : Database} {table : FileTable}

/-- A write that the ledger accepts goes through. -/
theorem runOn_of_accepts {op : Operation} {w : LedgerWrite} (hop : op.ledgerWrite? = some w)
    (h : db.tables.files = some table) (hw : table.Accepts w) :
    (op.run.runOn db).1.isOk = true ∧
      (op.run.runOn db).2.tables.files = some (table.write w) := by
  cases op with
  | recordFile filePath contentHash language =>
    obtain rfl := Option.some.inj hop
    have hupsert : db.tables.upsertFile filePath contentHash language =
        .ok { db.tables with files := some (table.write (.record filePath contentHash language)) } :=
      Tables.upsertFile_eq_ok.mpr ⟨table, h, hw, rfl⟩
    obtain ⟨record, hrecord⟩ := FileLedger.find?_of_upsertFile hupsert
    rw [Operation.run, StoreM.runOn_discard, FileLedger.upsert_runOn, hupsert]
    dsimp only
    rw [hrecord]
    exact ⟨rfl, rfl⟩
  | forgetFile filePath =>
    obtain rfl := Option.some.inj hop
    have hdelete : (FileLedger.delete filePath).runOn db = _ :=
      FileLedger.delete_eq_ok.mpr ⟨by rw [h, Option.isSome_some], rfl, rfl⟩
    rw [Operation.run, StoreM.runOn_discard_ok hdelete]
    exact ⟨rfl, congrArg (Option.map _) h⟩
  | _ => cases hop

/-- A write that the ledger does not accept fails and leaves it alone. -/
theorem runOn_of_not_accepts {op : Operation} {w : LedgerWrite} (hop : op.ledgerWrite? = some w)
    (h : db.tables.files = some table) (hw : ¬ table.Accepts w) :
    (op.run.runOn db).1.isOk = false ∧ (op.run.runOn db).2 = db := by
  cases op with
  | recordFile filePath contentHash language =>
    obtain rfl := Option.some.inj hop
    rw [Operation.run, StoreM.runOn_discard, FileLedger.upsert_runOn]
    cases hrun : db.tables.upsertFile filePath contentHash language with
    | error fault => exact ⟨rfl, rfl⟩
    | ok tables =>
      obtain ⟨table', htable', haccepts, -⟩ := Tables.upsertFile_eq_ok.mp hrun
      obtain rfl := Option.some.inj (h.symm.trans htable')
      exact absurd haccepts hw
  | forgetFile filePath =>
    obtain rfl := Option.some.inj hop
    exact absurd trivial hw
  | _ => cases hop

/-- A call writes to the ledger what it stands for if it succeeds, and nothing if it fails. -/
theorem files_call {op : Operation} (hop : (call op).OnLedger) (h : db.tables.files = some table) :
    (op.run.runOn db).2.tables.files = some (table.replay ((call op).kept db)) := by
  obtain ⟨w, hw⟩ := Option.isSome_iff_exists.mp hop
  by_cases haccepts : table.Accepts w
  · obtain ⟨hok, hfiles⟩ := runOn_of_accepts hw h haccepts
    rw [kept, hok, if_pos rfl, hw]
    exact hfiles
  · obtain ⟨hfail, hsame⟩ := runOn_of_not_accepts hw h haccepts
    rw [kept, hfail, if_neg Bool.false_ne_true, hsame]
    exact h

variable {fresh : FileTable} {log : List LedgerWrite}

/-- At its end, a run has made of the ledger what the writes that it kept make of it. -/
theorem files_run {p : Script} (hp : p.OnLedger)
    (h : db.tables.files = some (fresh.replay log)) :
    (p.run.runOn db).2.tables.files = some (fresh.replay (log ++ p.kept db)) := by
  induction p generalizing db log with
  | call op =>
    rw [FileTable.replay_append]
    exact files_call hp h
  | fail e =>
    rw [kept, List.append_nil]
    exact h
  | andThen p q ihp ihq =>
    have hmid := ihp hp.1 h
    rw [run, StoreM.runOn_bind, kept, ← List.append_assoc]
    revert hmid
    rcases p.run.runOn db with ⟨r, mid⟩
    intro hmid
    cases r with
    | ok _ => exact ihq hp.2 hmid
    | error e =>
      rw [List.append_nil]
      exact hmid
  | recover p ih =>
    rw [run, StoreM.runOn_discard]
    exact ih hp h
  | block p ih =>
    have hentered : db.entered.tables.files = some (fresh.replay log) := db.entered_tables.symm ▸ h
    have hbody := ih hp hentered
    rw [run, p.run_balanced.runOn_transaction, kept]
    dsimp only
    cases (p.run.runOn db.entered).1.isOk with
    | true => exact hbody
    | false =>
      rw [if_neg Bool.false_ne_true, if_neg Bool.false_ne_true, List.append_nil]
      exact h
  | snapshot p ih =>
    rw [run, kept]
    cases hin : db.inTransaction with
    | true =>
      rw [StoreM.snapshot_eq_of_inTransaction _ hin]
      exact ih hp h
    | false =>
      rw [p.run_balanced.runOn_snapshot hin, if_neg Bool.false_ne_true, List.append_nil]
      exact h

/-- In every state of a run, the ledger is what the history of the state makes of it. -/
theorem files_of_mem_marks {p : Script} (hp : p.OnLedger)
    (h : db.tables.files = some (fresh.replay log)) :
    ∀ mark ∈ p.marks log db, mark.2.tables.files = some (fresh.replay mark.1) := by
  induction p generalizing db log with
  | call op =>
    have hend := files_run hp h
    exact List.forall_mem_cons.mpr ⟨h, List.forall_mem_singleton.mpr hend⟩
  | fail e => exact List.forall_mem_singleton.mpr h
  | andThen p q ihp ihq =>
    rw [marks]
    refine List.forall_mem_append.mpr ⟨ihp hp.1 h, ?_⟩
    have hmid := files_run hp.1 h
    revert hmid
    rcases p.run.runOn db with ⟨r, mid⟩
    intro hmid
    cases r with
    | ok _ => exact ihq hp.2 hmid
    | error e => exact nofun
  | recover p ih => exact ih hp h
  | block p ih =>
    have hentered : db.entered.tables.files = some (fresh.replay log) := db.entered_tables.symm ▸ h
    have hend := files_run (p := block p) hp h
    exact List.forall_mem_cons.mpr ⟨h, List.forall_mem_append.mpr
      ⟨ih hp hentered, List.forall_mem_singleton.mpr hend⟩⟩
  | snapshot p ih =>
    have hbegun : (if db.inTransaction then db else db.begin).tables.files =
        some (fresh.replay log) := by
      split <;> exact h
    have hend := files_run (p := snapshot p) hp h
    exact List.forall_mem_cons.mpr ⟨h, List.forall_mem_append.mpr
      ⟨ih hp hbegun, List.forall_mem_singleton.mpr hend⟩⟩

/-! ### What the ledger says -/

/-- The ledger says what a history does: a path is found with the hash and the language that it was
last recorded with, and all present paths are listed once, in the order of their bytes, each with a
number of its own. -/
structure Tells (log : List LedgerWrite) (t : Tables) : Prop where
  find (path : String) : ∃ found, FileLedger.find? path t = .ok found ∧
    (∀ r ∈ found, r.filePath = path) ∧
    ∀ contentHash language, (∃ r ∈ found, r.contentHash = contentHash ∧ r.language = language) ↔
      Recorded log path contentHash language
  all : ∃ records, FileLedger.all t = .ok records ∧
    (∀ r, r ∈ records ↔ FileLedger.find? r.filePath t = .ok (some r)) ∧
    (∀ path, path ∈ records.map (·.filePath) ↔ Present log path) ∧
    records.Pairwise (fun a b => a.filePath.toUTF8.toList < b.filePath.toUTF8.toList) ∧
    (records.map (·.id)).Nodup

variable {t : Tables}

theorem find?_eq_some_iff (hfresh : fresh.rows = []) (h : t.files = some (fresh.replay log))
    {path : String} {r : FileRecord} :
    FileLedger.find? path t = .ok (some r) ↔ r ∈ (fresh.replay log).rows ∧ r.filePath = path := by
  have hpaths := ((FileTable.Sound.of_rows_eq_nil hfresh).replay log).paths
  rw [FileLedger.find?_eq_ok, Tables.fileRecords_of_some h, h]
  constructor
  · rintro ⟨-, hfound⟩
    exact ⟨List.mem_of_find?_eq_some hfound, by simpa using List.find?_some hfound⟩
  · rintro ⟨hr, rfl⟩
    have hsome : ((fresh.replay log).rows.find? (·.filePath == r.filePath)).isSome = true :=
      List.find?_isSome.mpr ⟨r, hr, beq_self_eq_true r.filePath⟩
    obtain ⟨r', hr'⟩ := Option.isSome_iff_exists.mp hsome
    have hpath : r'.filePath = r.filePath := by simpa using List.find?_some hr'
    rw [hr', List.inj_on_of_nodup_map hpaths (List.mem_of_find?_eq_some hr') hr hpath]
    exact ⟨rfl, rfl⟩

theorem tells_of_files (hfresh : fresh.rows = []) (h : t.files = some (fresh.replay log)) :
    Tells log t where
  find path := by
    obtain ⟨found, hfound⟩ : ∃ found, FileLedger.find? path t = .ok found :=
      ⟨_, FileLedger.find?_eq_ok.mpr ⟨Option.isSome_of_eq_some h, rfl⟩⟩
    have hiff : ∀ r, r ∈ found ↔ r ∈ (fresh.replay log).rows ∧ r.filePath = path := by
      intro r
      rw [← find?_eq_some_iff hfresh h, hfound, Except.ok.injEq]
      exact Option.mem_def
    refine ⟨found, hfound, fun r hr => ((hiff r).mp hr).2, fun contentHash language => ?_⟩
    rw [← FileTable.mem_entries_replay hfresh, List.mem_map]
    constructor
    · rintro ⟨r, hr, rfl, rfl⟩
      obtain ⟨hmem, rfl⟩ := (hiff r).mp hr
      exact ⟨r, hmem, rfl⟩
    · rintro ⟨r, hr, heq⟩
      obtain ⟨rfl, hrest⟩ := Prod.mk.inj heq
      obtain ⟨rfl, rfl⟩ := Prod.mk.inj hrest
      exact ⟨r, (hiff r).mpr ⟨hr, rfl⟩, rfl, rfl⟩
  all := by
    have hsound := (FileTable.Sound.of_rows_eq_nil hfresh).replay log
    obtain ⟨records, hall⟩ : ∃ records, FileLedger.all t = .ok records :=
      ⟨_, FileLedger.all_eq_ok.mpr ⟨Option.isSome_of_eq_some h, rfl⟩⟩
    obtain ⟨hperm, hsorted⟩ := FileLedger.pairwise_of_all hall
    rw [Tables.fileRecords_of_some h] at hperm
    have hdistinct := List.pairwise_map.mp ((hperm.map (·.filePath)).nodup_iff.mpr hsound.paths)
    refine ⟨records, hall, fun r => ?_, fun path => ?_, ?_,
      (hperm.map (·.id)).nodup_iff.mpr hsound.ids⟩
    · rw [find?_eq_some_iff hfresh h, hperm.mem_iff, and_iff_left rfl]
    · rw [← FileTable.mem_paths_replay hfresh, (hperm.map (·.filePath)).mem_iff]
    · exact hsorted.imp₂
        (fun _ _ hle hne => lt_iff_utf8Bytes_lt.mp (lt_of_le_of_ne hle hne)) hdistinct

/-- **The ledger of files is a map from paths, with numbers that last.** Take a store whose ledger
has come about by some writes since it was made, by none if the store was just migrated, and any run
of writes to the ledger, however they are grouped into blocks and whichever of these fail. Reading
in between changes nothing. Each state that the run visits, those inside of open blocks included,
has as its history the writes in effect there, without those that were taken back, its ledger says
what the history does, and every write that the ledger accepts, which are all of them in a store
that was just migrated, goes through there. A record has the same number in two states if its path
stays from a history that both of theirs go on from. In a state that goes on from an earlier one, a
record has the number of an earlier record only if it is of the same path and the path has stayed in
between: the number of a record that was deleted is not given out again. -/
theorem ledger_history {p : Script} {log₀ : List LedgerWrite} (hp : p.OnLedger)
    (hfresh : fresh.rows = []) (hdb : db.tables.files = some (fresh.replay log₀)) :
    (p.marks log₀ db).map Prod.snd = p.visited db ∧
    (∀ mark ∈ p.marks log₀ db, Tells mark.1 mark.2.tables ∧
      ∀ (op : Operation) (w : LedgerWrite), op.ledgerWrite? = some w → fresh.Accepts w →
        (op.run.runOn mark.2).1.isOk = true) ∧
    ∀ mark ∈ p.marks log₀ db, ∀ mark' ∈ p.marks log₀ db, ∀ r r' : FileRecord,
      FileLedger.find? r.filePath mark.2.tables = .ok (some r) →
      FileLedger.find? r'.filePath mark'.2.tables = .ok (some r') →
      (r.filePath = r'.filePath → ∀ common, common <+: mark.1 → common <+: mark'.1 →
        Stays common mark.1 r.filePath → Stays common mark'.1 r.filePath → r.id = r'.id) ∧
      (mark.1 <+: mark'.1 → r.id = r'.id →
        r.filePath = r'.filePath ∧ Stays mark.1 mark'.1 r.filePath) := by
  have hfiles := files_of_mem_marks hp hdb
  refine ⟨map_snd_marks p log₀ db, fun mark hmark => ?_,
    fun mark hmark mark' hmark' r r' hr hr' => ?_⟩
  · refine ⟨tells_of_files hfresh (hfiles mark hmark), fun op w hop hw => ?_⟩
    exact (runOn_of_accepts hop (hfiles mark hmark) (FileTable.accepts_replay.mpr hw)).1
  obtain ⟨hr, -⟩ := (find?_eq_some_iff hfresh (hfiles mark hmark)).mp hr
  obtain ⟨hr', -⟩ := (find?_eq_some_iff hfresh (hfiles mark' hmark')).mp hr'
  refine ⟨fun hpath common hcommon hcommon' hstays hstays' => ?_,
    fun hlog hid => FileTable.stays_of_id_eq hfresh hlog hr hr' hid⟩
  -- the record of the path in the common part has the number of both
  have hthere := hstays common (List.prefix_refl common) hcommon
  obtain ⟨r₀, hr₀, hpath₀⟩ :=
    List.mem_map.mp ((FileTable.mem_paths_replay hfresh common).mpr hthere)
  have hnumber : ∀ {log} {r : FileRecord}, r ∈ (fresh.replay log).rows → r₀.filePath = r.filePath →
      common <+: log → Stays common log r.filePath → r.id = r₀.id := by
    intro log r hr hpath hlog hstays
    obtain ⟨r₁, hr₁, hid, hpath₁⟩ := FileTable.exists_mem_replay hfresh hlog hr₀ (hpath ▸ hstays)
    have hpaths := ((FileTable.Sound.of_rows_eq_nil hfresh).replay log).paths
    rw [List.inj_on_of_nodup_map hpaths hr hr₁ (hpath.symm.trans hpath₁.symm), hid]
  exact (hnumber hr hpath₀ hcommon hstays).trans
    (hnumber hr' (hpath₀.trans hpath) hcommon' (hpath ▸ hstays')).symm

/-- records a file, takes back that it was replaced by another one, and then records it once more
before and after it is forgotten -/
def recordingAgain : Script :=
  .andThen (.call (.recordFile "/a.ts" "1" "typescript"))
    (.andThen (.recover (.block (.andThen (.call (.forgetFile "/a.ts"))
        (.andThen (.call (.recordFile "/b.ts" "2" "typescript"))
          (.fail (.validation (.other "stop")))))))
      (.block (.andThen (.call (.recordFile "/a.ts" "3" "typescript"))
        (.andThen (.call (.forgetFile "/a.ts")) (.call (.recordFile "/a.ts" "4" "typescript"))))))

/-- The file has its first number until it is forgotten, and a number of its own after that. -/
theorem ledger_history_recordingAgain :
    let first : LedgerWrite := .record "/a.ts" "1" "typescript"
    let second : LedgerWrite := .record "/a.ts" "3" "typescript"
    let third : LedgerWrite := .record "/a.ts" "4" "typescript"
    ∃ before between after : Database,
      ([first], before) ∈ recordingAgain.marks [] (.opened true) ∧
      ([first, second], between) ∈ recordingAgain.marks [] (.opened true) ∧
      ([first, second, .forget "/a.ts", third], after) ∈ recordingAgain.marks [] (.opened true) ∧
      ∃ r r' r'', FileLedger.find? "/a.ts" before.tables = .ok (some r) ∧
        FileLedger.find? "/a.ts" between.tables = .ok (some r') ∧
        FileLedger.find? "/a.ts" after.tables = .ok (some r'') ∧
        r'.id = r.id ∧ r''.id ≠ r.id ∧ r''.contentHash = "4" := by
  intro first second third
  have hledger : recordingAgain.OnLedger := by
    simp only [recordingAgain, OnLedger]
    decide
  have hmade : (Database.opened true).tables.files = some (FileTable.replay {} []) := by
    rw [Database.opened_true]
    rfl
  obtain ⟨-, htells, hids⟩ := ledger_history hledger rfl hmade
  have hlogs : ∀ log ∈ [[first], [first, second], [first, second, .forget "/a.ts", third]],
      ∃ state, (log, state) ∈ recordingAgain.marks [] (.opened true) := by
    intro log hlog
    have hsub : [[first], [first, second], [first, second, .forget "/a.ts", third]] ⊆
        (recordingAgain.marks [] (.opened true)).map Prod.fst := by
      rw [Database.opened_true]
      decide +kernel
    obtain ⟨⟨_, state⟩, hmark, rfl⟩ := List.mem_map.mp (hsub hlog)
    exact ⟨state, hmark⟩
  obtain ⟨before, hbefore⟩ := hlogs [first] (by simp)
  obtain ⟨between, hbetween⟩ := hlogs [first, second] (by simp)
  obtain ⟨after, hafter⟩ := hlogs [first, second, .forget "/a.ts", third] (by simp)
  have hfound : ∀ log state contentHash,
      (log, state) ∈ recordingAgain.marks [] (.opened true) →
      Recorded log "/a.ts" contentHash "typescript" →
      ∃ r, FileLedger.find? "/a.ts" state.tables = .ok (some r) ∧ r.filePath = "/a.ts" ∧
        r.contentHash = contentHash := by
    intro log state contentHash hmark hrecorded
    obtain ⟨found, hfind, hpath, hiff⟩ := (htells _ hmark).1.find "/a.ts"
    obtain ⟨r, hr, hhash, -⟩ := (hiff contentHash "typescript").mpr hrecorded
    exact ⟨r, hr ▸ hfind, hpath r hr, hhash⟩
  have hfirst : Recorded [first] "/a.ts" "1" "typescript" := ⟨[], [], rfl, nofun⟩
  have hsecond : Recorded [first, second] "/a.ts" "3" "typescript" := ⟨[first], [], rfl, nofun⟩
  obtain ⟨r, hr, hpath, -⟩ := hfound _ before "1" hbefore hfirst
  obtain ⟨r', hr', hpath', -⟩ := hfound _ between "3" hbetween hsecond
  obtain ⟨r'', hr'', hpath'', hhash⟩ := hfound _ after "4" hafter
    ⟨[first, second, .forget "/a.ts"], [], rfl, nofun⟩
  refine ⟨before, between, after, hbefore, hbetween, hafter, r, r', r'', hr, hr', hr'',
    ?_, ?_, hhash⟩
  · have hstays : Stays [first] [first] r.filePath := .refl ⟨_, _, hpath ▸ hfirst⟩
    have hstays' : Stays [first] ([first] ++ [second]) r.filePath :=
      hstays.concat ⟨_, _, hpath ▸ hsecond⟩
    exact ((hids _ hbefore _ hbetween r r' (hpath ▸ hr) (hpath' ▸ hr')).1 (hpath.trans hpath'.symm)
      [first] (List.prefix_refl _) (List.prefix_append _ _) hstays hstays').symm
  · intro hid
    obtain ⟨-, hstays⟩ := (hids _ hbefore _ hafter r r'' (hpath ▸ hr) (hpath'' ▸ hr'')).2
      (List.prefix_append _ _) hid.symm
    obtain ⟨_, _, hrecorded⟩ := hstays ([first, second] ++ [.forget "/a.ts"])
      (List.prefix_append _ _) (List.prefix_append _ _)
    rcases recorded_concat.mp hrecorded with h | ⟨h, -⟩
    · cases h
    · exact h hpath.symm

end Script

end CodeAtlas
