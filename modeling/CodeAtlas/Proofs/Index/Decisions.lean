import CodeAtlas.Proofs.Index.SyncExact
import CodeAtlas.Proofs.Store.Plain

/-!
# What indexing a content decides and what it writes

The ledger, the language, the extractor and the check of what was found are asked in this order. An
error and an unchanged content leave the store as it is. Anything else deletes the entities of the
file if the file is in the ledger, resolves what was found, and notes the content.

* `Indexer.replace_steps`          replacing a file is resolving on cleared tables, and a record;
* `Indexer.exists_replace`         a file is replaced whatever is stored of it;
* `Indexer.Rewritten`              what replacing a file did, by the tables before and after it;
* `Indexer.Decided`                what is decided, and what is written in each case;
* `Indexer.indexContent_decides`   indexing a content ends, and this is what it did.
-/

namespace CodeAtlas

open StoreM

/-! ### Replacing a file, step by step -/

/-- A block that is not the first one to be opened does what it does on any other handle with the
same content. -/
theorem StoreM.runOn_block_congr {α : Type} {x : StoreM α} (hx : x.IsProgram) (f : Error → Error)
    {a b : Database} (h : b.content = a.content) :
    (mapError f (transaction x)).runOn b =
      (((mapError f (transaction x)).runOn a).1,
        b.holding ((mapError f (transaction x)).runOn a).2.content) := by
  obtain ⟨p, rfl⟩ := hx
  have hrun := (StoreProgram.relabel f (.block p)).runOn_eq
  have ha := hrun a
  have hb := hrun b
  simp only [StoreProgram.run] at ha hb
  rw [ha, hb, h]
  rfl

theorem Resolver.resolve_congr (es : List NewEntity) (rs : List ExtractedRelationship)
    {a b : Database} (h : b.content = a.content) :
    (resolve es rs).runOn b =
      (((resolve es rs).runOn a).1, b.holding ((resolve es rs).runOn a).2.content) :=
  runOn_block_congr (resolveWithin_isProgram es rs) _ h

namespace Indexer

variable {filePath hash language : String} {known : Bool} {x : Extraction} {db after : Database}
  {report : ResolutionReport}

/-- Replacing a file resolves its extraction on the cleared tables, and then notes the file. -/
theorem replace_steps
    (h : (replace filePath hash language known x).runOn db = (.ok report, after)) :
    ∃ last, (Resolver.resolve x.entities x.relationships).runOn
        { db with tables := cleared filePath known db.tables } = (.ok report, last) ∧
      last.tables.upsertFile filePath hash language = .ok after.tables ∧
      after = { db with tables := after.tables, idsUsed := last.idsUsed } := by
  rw [replace_eq] at h
  obtain ⟨mid, hbody, rfl⟩ :=
    runOn_transaction_eq_ok (replaceBody_balanced filePath hash language known x) h
  obtain ⟨last, hresolve, hupsert, hmid⟩ := replaceBody_steps hbody
  have hids : mid.idsUsed = last.idsUsed := by rw [hmid]
  -- inside of the block the resolver does what it does outside
  let start : Database := { db with tables := cleared filePath known db.tables }
  let inside : Database :=
    { db.entered with tables := cleared filePath known db.entered.tables }
  have hcontent : start.content = inside.content := by
    show Content.mk _ db.idsUsed = ⟨cleared filePath known db.entered.tables, db.entered.idsUsed⟩
    rw [db.entered_tables, db.entered_idsUsed]
  have houtside := Resolver.resolve_congr x.entities x.relationships hcontent
  rw [hresolve] at houtside
  exact ⟨start.holding last.content, houtside, hupsert, by rw [hids]; rfl⟩

/-- the ledger has the content, and this is to be asked -/
def Unchanged (options : IndexerOptions) (filePath content : String) (t : Tables) : Prop :=
  options.useHashCheck = true ∧ ∃ r, FileLedger.find? filePath t = .ok (some r) ∧
    r.contentHash = Blake3.hash content.toUTF8

/-- nothing can be extracted, or an entity would be invalid in the file -/
def Unusable (extractor : Extractor) (filePath content language : String) : Prop :=
  (∃ e, extractor filePath content language = .error e) ∨
    ∃ found, extractor filePath content language = .ok found ∧
      ∃ e ∈ found.entities, { e with filePath }.fault? ≠ none

/-- What replacing a file by an extraction did. What was stored of the file was deleted if the file
was known. -/
structure Rewritten (filePath hash language : String) (known : Bool) (x : Extraction)
    (db after : Database) (o : IndexOutcome) (report : ResolutionReport) : Prop where
  others : db.tables.AgreeOn (· != filePath) after.tables
  record : ∃ r, FileLedger.find? filePath after.tables = .ok (some r) ∧ r.contentHash = hash ∧
    r.language = language
  /-- The report is that of the resolver on the tables without what was deleted. -/
  resolved : ∃ last, (Resolver.resolve x.entities x.relationships).runOn
    { db with tables := cleared filePath known db.tables } = (.ok report, last)
  entityRows : after.tables.entityRows =
    (cleared filePath known db.tables).entityRows ++ report.entities.map .ofEntity
  /-- The edges that go are those at an entity that was deleted; those that come were resolved. -/
  relationshipRows : after.tables.relationshipRows =
    (db.tables.relationshipRows.filter fun r =>
      !(deletedIds filePath known db.tables).contains r.sourceId &&
        !(deletedIds filePath known db.tables).contains r.targetId) ++
      report.relationships.map .ofRelationship
  outcome : o.entities = report.entities ∧ o.relationshipsCreated = report.relationships.length ∧
    o.relationshipsDropped = report.dropped
  ledger : after.tables.ledger = db.tables.ledger
  foreign : after.tables.others = db.tables.others
  handle : after = { db with tables := after.tables, idsUsed := after.idsUsed }

/-- What indexing a content decided, and what it wrote. -/
structure Decided (base : Path) (options : IndexerOptions) (extractor : Extractor)
    (path content : String) (db : Database) (o : IndexOutcome) (after : Database) : Prop where
  filePath : o.filePath = base.normalize path
  language : o.language = Language.detect (base.normalize path)
  error : o.action = .error ↔ Language.detect (base.normalize path) = none ∨
    ∃ language, Language.detect (base.normalize path) = some language ∧
      ¬ Unchanged options (base.normalize path) content db.tables ∧
      Unusable extractor (base.normalize path) content language
  skipped : o.action = .skipped ↔ (Language.detect (base.normalize path)).isSome = true ∧
    Unchanged options (base.normalize path) content db.tables
  updated : o.action = .updated ↔
    (o.action ≠ .error ∧ o.action ≠ .skipped) ∧ db.tables.Ledgered (base.normalize path)
  created : o.action = .created ↔
    (o.action ≠ .error ∧ o.action ≠ .skipped) ∧ ¬ db.tables.Ledgered (base.normalize path)
  untouched : o.action = .error ∨ o.action = .skipped → after = db
  written : o.action = .updated ∨ o.action = .created →
    ∃ language found report, Language.detect (base.normalize path) = some language ∧
      extractor (base.normalize path) content language = .ok found ∧
      Rewritten (base.normalize path) (Blake3.hash content.toUTF8) language
        (o.action == .updated) (found.anchor base (base.normalize path)) db after o report

variable {base : Path} {options : IndexerOptions} {extractor : Extractor}
  {path content : String} {o : IndexOutcome}

theorem isUnchanged_iff {previous : Option FileRecord}
    (hprevious : FileLedger.find? filePath db.tables = .ok previous) :
    isUnchanged options previous content = true ↔ Unchanged options filePath content db.tables := by
  rw [isUnchanged_eq_true, Unchanged, hprevious]
  simp only [Except.ok.injEq]

theorem not_unchanged {previous : Option FileRecord}
    (hprevious : FileLedger.find? filePath db.tables = .ok previous)
    (h : isUnchanged options previous content = false) :
    ¬ Unchanged options filePath content db.tables :=
  mt (isUnchanged_iff hprevious).mpr (Bool.eq_false_iff.mp h)

theorem isSome_iff_ledgered {previous : Option FileRecord}
    (hprevious : FileLedger.find? filePath db.tables = .ok previous) :
    previous.isSome = true ↔ db.tables.Ledgered filePath := by
  cases previous with
  | none => exact ⟨nofun, fun h => absurd h (FileLedger.not_ledgered_of_find? hprevious)⟩
  | some r => exact ⟨fun _ => FileLedger.ledgered_of_find? hprevious, fun _ => rfl⟩

theorem exists_error_iff {language : String} :
    (∃ e, checked base extractor filePath content language = .error e) ↔
      Unusable extractor filePath content language := by
  constructor
  · rintro ⟨e, h⟩
    unfold checked at h
    cases hx : extractor filePath content language with
    | error e' => exact .inl ⟨e', hx⟩
    | ok found =>
      refine .inr ⟨found, hx, ?_⟩
      by_contra hnone
      have hvalid : (found.anchor base filePath).entities.forM NewEntity.validate = .ok () := by
        refine NewEntity.forM_validate_eq_ok.mpr fun e' he' => ?_
        obtain ⟨e, he, rfl⟩ := List.mem_map.mp he'
        by_contra hfault
        exact hnone ⟨e, he, hfault⟩
      simp only [hx, hvalid] at h
      cases h
  · rintro (⟨e, hx⟩ | ⟨found, hx, e, he, hfault⟩)
    · exact ⟨e, by rw [checked, hx]⟩
    · cases hvalid : (found.anchor base filePath).entities.forM NewEntity.validate with
      | error e' => exact ⟨e', by simp only [checked, hx, hvalid]⟩
      | ok _ =>
        have hall := NewEntity.forM_validate_eq_ok.mp hvalid
        exact absurd (hall _ (List.mem_map_of_mem he)) hfault

/-- What replacing a file wrote. -/
theorem rewritten_of_replace {language : String}
    (hfound : checked base extractor filePath content language = .ok x)
    (h : (replace filePath hash language known x).runOn db = (.ok report, after))
    (ho : o.entities = report.entities ∧ o.relationshipsCreated = report.relationships.length ∧
      o.relationshipsDropped = report.dropped) :
    Rewritten filePath hash language known x db after o report := by
  obtain ⟨last, hresolve, hupsert, hafter⟩ := replace_steps h
  obtain ⟨hreplaced, hentities⟩ := replace_eq_ok h
  obtain ⟨⟨-, hedges, hunchanged⟩, -⟩ := Resolver.resolution_of_runOn hresolve
  obtain ⟨table, htable, -, htables⟩ := Tables.upsertFile_eq_ok.mp hupsert
  refine ⟨hreplaced.agreeOn (filePath_of_checked hfound hentities), ?record, ⟨last, hresolve⟩,
    ?entities, ?edges, ho, ?ledger, ?foreign, ?handle⟩
  case record =>
    obtain ⟨r, hfind, hentry⟩ := Tables.exists_find?_of_refreshed (congrArg Tables.files htables)
    exact ⟨r, hfind, congrArg (·.2.1) hentry, congrArg (·.2.2) hentry⟩
  case entities => rw [hreplaced.entityRows, cleared_entityRows]
  case edges =>
    rw [htables]
    show last.tables.relationshipRows = _
    rw [hedges]
    exact congrArg (· ++ _) (cleared_relationshipRows filePath known db.tables)
  case ledger =>
    rw [htables, hunchanged]
    cases known <;> rfl
  case foreign =>
    rw [htables, hunchanged]
    cases known <;> rfl
  case handle => rw [hafter]

theorem decided_of_none (h : Language.detect (base.normalize path) = none)
    (hrun : (indexContent base options extractor path content).runOn db = (.ok o, after)) :
    Decided base options extractor path content db o after := by
  rw [indexContent_of_none h] at hrun
  cases hrun
  refine ⟨rfl, h.symm, ⟨fun _ => .inl h, fun _ => rfl⟩, ⟨nofun, fun hskip => ?_⟩,
    ⟨nofun, fun hnot => absurd rfl hnot.1.1⟩, ⟨nofun, fun hnot => absurd rfl hnot.1.1⟩,
    fun _ => rfl, fun hwritten => ?_⟩
  · rw [h] at hskip
    cases hskip.1
  · rcases hwritten with hwritten | hwritten <;> cases hwritten

/-- What replacing a file is called: it is neither of the other two outcomes, and tells whether the
file was in the ledger. -/
theorem replacing_action {previous : Option FileRecord} {action : IndexAction}
    (hprevious : FileLedger.find? filePath db.tables = .ok previous)
    (haction : action = if previous.isSome then .updated else .created) :
    (action ≠ .error ∧ action ≠ .skipped) ∧ (action = .updated ↔ db.tables.Ledgered filePath) ∧
      (action = .created ↔ ¬ db.tables.Ledgered filePath) ∧
      (action == .updated) = previous.isSome := by
  rw [← isSome_iff_ledgered hprevious, haction]
  cases previous.isSome <;> decide

/-- With a known language, an error is a failure of the extraction that the hash did not forestall. -/
theorem failing_iff {language : String} {t : Tables} (h : Language.detect filePath = some language) :
    (Language.detect filePath = none ∨ ∃ language, Language.detect filePath = some language ∧
        ¬ Unchanged options filePath content t ∧ Unusable extractor filePath content language) ↔
      ¬ Unchanged options filePath content t ∧ Unusable extractor filePath content language := by
  simp [h]

theorem decided_of_replaced {language : String} {previous : Option FileRecord} {x : Extraction}
    (hlanguage : Language.detect (base.normalize path) = some language)
    (hprevious : FileLedger.find? (base.normalize path) db.tables = .ok previous)
    (hsame : isUnchanged options previous content = false)
    (hchecked : checked base extractor (base.normalize path) content language = .ok x)
    (hrun : (indexKnown base options extractor (base.normalize path) content language).runOn db =
      (.ok o, after)) :
    Decided base options extractor path content db o after := by
  have hchanged := not_unchanged hprevious hsame
  have husable : ¬ Unusable extractor (base.normalize path) content language := fun h => by
    obtain ⟨e, he⟩ := exists_error_iff.mpr h
    rw [hchecked] at he
    cases he
  obtain ⟨found, hextracted, rfl, -⟩ := checked_eq_ok hchecked
  rw [indexKnown_eq, runOn_bind_ok (runOn_query_ok hprevious), hsame, if_neg Bool.false_ne_true,
    hchecked] at hrun
  obtain ⟨report, mid, hreplace, hrun⟩ := runOn_bind_eq_ok.mp hrun
  cases hrun
  obtain ⟨hneither, hupdated, hcreated, hknown⟩ := replacing_action hprevious rfl
  refine ⟨rfl, hlanguage.symm, ⟨fun h => absurd h hneither.1, fun h => ?_⟩,
    ⟨fun h => absurd h hneither.2, fun h => absurd h.2 hchanged⟩,
    ⟨fun h => ⟨hneither, hupdated.mp h⟩, fun h => hupdated.mpr h.2⟩,
    ⟨fun h => ⟨hneither, hcreated.mp h⟩, fun h => hcreated.mpr h.2⟩,
    fun h => absurd h (not_or.mpr hneither),
    fun _ => ⟨language, found, report, hlanguage, hextracted, ?_⟩⟩
  · exact absurd ((failing_iff hlanguage).mp h).2 husable
  · show Rewritten _ _ _ (_ == IndexAction.updated) _ _ _ _ _
    rw [hknown]
    exact rewritten_of_replace hchecked hreplace ⟨rfl, rfl, rfl⟩

theorem decided_of_some {language : String}
    (hlanguage : Language.detect (base.normalize path) = some language)
    (hrun : (indexContent base options extractor path content).runOn db = (.ok o, after)) :
    Decided base options extractor path content db o after := by
  rw [indexContent_of_some hlanguage] at hrun
  cases indexKnown_eq_ok hrun with
  | skipped hprevious hsame =>
    have hunchanged := (isUnchanged_iff hprevious).mp hsame
    refine ⟨rfl, hlanguage.symm, ⟨nofun, fun h => absurd hunchanged ((failing_iff hlanguage).mp h).1⟩,
      ⟨fun _ => ⟨by rw [hlanguage]; rfl, hunchanged⟩, fun _ => rfl⟩,
      ⟨nofun, fun h => absurd rfl h.1.2⟩, ⟨nofun, fun h => absurd rfl h.1.2⟩, fun _ => rfl,
      fun h => ?_⟩
    rcases h with h | h <;> cases h
  | failed hprevious hsame hchecked =>
    have hchanged := not_unchanged hprevious hsame
    have hunusable := exists_error_iff.mp ⟨_, hchecked⟩
    refine ⟨rfl, hlanguage.symm,
      ⟨fun _ => (failing_iff hlanguage).mpr ⟨hchanged, hunusable⟩, fun _ => rfl⟩,
      ⟨nofun, fun h => absurd h.2 hchanged⟩, ⟨nofun, fun h => absurd rfl h.1.1⟩,
      ⟨nofun, fun h => absurd rfl h.1.1⟩, fun _ => rfl, fun h => ?_⟩
    rcases h with h | h <;> cases h
  | replaced hprevious hsame hchecked =>
    exact decided_of_replaced hlanguage hprevious hsame hchecked hrun

theorem decided_of_runOn
    (hrun : (indexContent base options extractor path content).runOn db = (.ok o, after)) :
    Decided base options extractor path content db o after := by
  cases hlanguage : Language.detect (base.normalize path) with
  | none => exact decided_of_none hlanguage hrun
  | some language => exact decided_of_some hlanguage hrun

end Indexer

end CodeAtlas
