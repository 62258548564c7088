import CodeAtlas.Proofs.Index.Decisions
import CodeAtlas.Proofs.Store.Migrations.Calls

/-!
# What is left of a file that is indexed

Indexing a content replaces what is stored of its file if the file is in the ledger. If it is not,
nothing is deleted: entities that were stored without a record, or whose record is gone, stay next
to the ones that are found.

* `Indexer.stored_of_written`     the entities of a file after it was indexed;
* `Indexer.survivors_iff`         nothing is left if and only if the file was in the ledger, or had
                                  no entities;
* `Indexer.leftovers_survive`     a file whose record went with the ledger is stored twice.
-/

namespace CodeAtlas

open StoreM

theorem Resolver.entities_of_runOn {es : List NewEntity} {rs : List ExtractedRelationship}
    {db after : Database} {r : ResolutionReport}
    (h : (resolve es rs).runOn db = (.ok r, after)) :
    r.entities = Entities.numbered db.idsUsed es := by
  obtain ⟨mid, hbody, -⟩ := runOn_transaction_eq_ok (resolveWithin_balanced es rs) h
  rw [(resolveWithin_eq_ok hbody).1, ← db.entered_idsUsed]
  rfl

namespace Indexer

variable {base : Path} {options : IndexerOptions} {extractor : Extractor}
  {path content : String} {db after : Database} {o : IndexOutcome}

/-- What was stored of a file stays, unless the file was updated. -/
theorem stored_of_written (hdecided : Decided base options extractor path content db o after)
    (hwritten : o.action = .updated ∨ o.action = .created) :
    after.tables.rowsIn (base.normalize path) =
        (if o.action = .updated then [] else db.tables.rowsIn (base.normalize path)) ++
          o.entities.map .ofEntity ∧
      ∀ e ∈ o.entities, ∃ k, db.idsUsed ≤ k ∧ e.id = idOf k := by
  obtain ⟨language, found, report, -, -, hrewritten⟩ := hdecided.written hwritten
  obtain ⟨last, hresolve⟩ := hrewritten.resolved
  have hnumbered := Resolver.entities_of_runOn hresolve
  have hentities : o.entities = report.entities := hrewritten.outcome.1
  have hnew : (o.entities.map EntityRow.ofEntity).filter (·.filePath == base.normalize path) =
      o.entities.map .ofEntity := by
    refine List.filter_eq_self.mpr fun r hr => ?_
    obtain ⟨e, he, rfl⟩ := List.mem_map.mp hr
    have hmem : e.toNewEntity ∈ (found.anchor base (base.normalize path)).entities := by
      rw [hentities, hnumbered] at he
      have hmem := List.mem_map_of_mem (f := Entity.toNewEntity) he
      rwa [Entities.numbered_map_toNewEntity] at hmem
    obtain ⟨e', -, heq⟩ := List.mem_map.mp hmem
    exact beq_iff_eq.mpr (congrArg NewEntity.filePath heq.symm)
  constructor
  · rw [Tables.rowsIn, hrewritten.entityRows, ← hentities, List.filter_append, hnew,
      cleared_entityRows]
    rcases hwritten with hupdated | hcreated
    · rw [if_pos hupdated, if_pos (beq_iff_eq.mpr hupdated), List.filter_filter]
      simp
    · have hnot : o.action ≠ .updated := by rw [hcreated]; decide
      rw [if_neg hnot, if_neg (mt beq_iff_eq.mp hnot)]
      rfl
  · intro e he
    rw [hentities, hnumbered] at he
    exact Entities.numbered_id he

/-- After a call that wrote, the file has exactly the entities of the outcome if and only if the
ledger had the file or nothing was stored of it. In a file that the ledger did not have, every
entity survives. -/
theorem survivors_iff {migrated : Bool} {p : Script}
    (hreached : db ∈ p.visited (Database.opened migrated))
    (hrun : (indexContent base options extractor path content).runOn db = (.ok o, after))
    (hwritten : o.action = .updated ∨ o.action = .created) :
    (o.action = .updated ↔ db.tables.Ledgered (base.normalize path)) ∧
      after.tables.rowsIn (base.normalize path) =
        (if o.action = .updated then [] else db.tables.rowsIn (base.normalize path)) ++
          o.entities.map .ofEntity ∧
      (after.tables.rowsIn (base.normalize path) = o.entities.map .ofEntity ↔
        db.tables.Ledgered (base.normalize path) ∨
          db.tables.rowsIn (base.normalize path) = []) ∧
      ∀ r ∈ db.tables.rowsIn (base.normalize path),
        r.id ∈ (after.tables.rowsIn (base.normalize path)).map (·.id) ↔
          ¬ db.tables.Ledgered (base.normalize path) := by
  have hsound := (p.visited_sound (Database.opened_sound migrated) db hreached).tables
  have hdecided := decided_of_runOn hrun
  have hledgered : o.action = .updated ↔ db.tables.Ledgered (base.normalize path) := by
    refine hdecided.updated.trans ⟨fun h => h.2, fun h => ⟨?_, h⟩⟩
    rcases hwritten with hwritten | hwritten <;> rw [hwritten] <;> exact ⟨nofun, nofun⟩
  obtain ⟨hrows, hnew⟩ := stored_of_written hdecided hwritten
  refine ⟨hledgered, hrows, ?_, fun r hr => ?_⟩
  · rw [hrows, List.append_left_eq_self, ← hledgered]
    by_cases hupdated : o.action = .updated <;> simp [hupdated]
  · have hfresh : r.id ∉ (o.entities.map EntityRow.ofEntity).map (·.id) := by
      intro hmem
      obtain ⟨_, hmem, heq⟩ := List.mem_map.mp hmem
      obtain ⟨e, he, rfl⟩ := List.mem_map.mp hmem
      obtain ⟨k, hk, hid⟩ := hsound.issuedId r (List.mem_filter.mp hr).1
      obtain ⟨k', hk', hid'⟩ := hnew e he
      have heq : idOf k' = idOf k := hid'.symm.trans (heq.trans hid)
      exact absurd (idOf_inj heq) (Nat.ne_of_gt (Nat.lt_of_lt_of_le hk hk'))
    rw [hrows, List.map_append, List.mem_append, or_iff_left hfresh, ← hledgered]
    by_cases hupdated : o.action = .updated
    · simp [hupdated]
    · rw [if_neg hupdated]
      exact ⟨fun _ => hupdated, fun _ => List.mem_map_of_mem hr⟩

/-- indexes a file without a content -/
def indexing (filePath : String) : Script :=
  .call (.indexContent ⟨[]⟩ { useHashCheck := false } linkExtractor filePath "")

theorem survivors_iff_twice :
    ∃ db ∈ (indexing "/a.ts").visited (Database.opened true), ∃ o after,
      (indexContent ⟨[]⟩ { useHashCheck := false } linkExtractor "/a.ts" "").runOn db =
        (.ok o, after) ∧
      o.action = .updated ∧
      (db.tables.rowsIn "/a.ts").map (·.id) = [idOf 0] ∧
      after.tables.rowsIn "/a.ts" = o.entities.map .ofEntity ∧
      (after.tables.rowsIn "/a.ts").map (·.id) = [idOf 1] := by
  have hmem := (indexing "/a.ts").final_mem_visited (Database.opened true)
  have hbefore : (((indexing "/a.ts").run.runOn (Database.opened true)).2.tables.rowsIn
      "/a.ts").map (·.id) = [idOf 0] := by
    rw [Database.opened_true]
    decide +kernel
  have hcall : ((indexContent ⟨[]⟩ { useHashCheck := false } linkExtractor "/a.ts" "").runOn
      ((indexing "/a.ts").run.runOn (Database.opened true)).2).1.toOption.map (·.action) =
        some .updated := by
    rw [Database.opened_true]
    decide +kernel
  have hafter : (((indexContent ⟨[]⟩ { useHashCheck := false } linkExtractor "/a.ts" "").runOn
      ((indexing "/a.ts").run.runOn (Database.opened true)).2).2.tables.rowsIn
        "/a.ts").map (·.id) = [idOf 1] := by
    rw [Database.opened_true]
    decide +kernel
  generalize ((indexing "/a.ts").run.runOn (Database.opened true)).2 = db at *
  rcases hrun : (indexContent ⟨[]⟩ { useHashCheck := false } linkExtractor "/a.ts" "").runOn db
    with ⟨result, after⟩
  rw [hrun] at hcall hafter
  cases result with
  | error e => cases hcall
  | ok o =>
    have hupdated : o.action = .updated := Option.some.inj hcall
    obtain ⟨hledgered, -, hexact, -⟩ := survivors_iff hmem hrun (.inl hupdated)
    exact ⟨db, hmem, o, after, hrun, hupdated, hbefore,
      hexact.mpr (.inl (hledgered.mp hupdated)), hafter⟩

/-- the graph, with nothing in the ledger of files -/
def unledgered (db : Database) : Database :=
  { db with tables := { db.tables with files := some {} } }

/-- indexes a file, and drops and restores the ledger after it -/
def forgetting (filePath : String) : Script :=
  .andThen (indexing filePath) (.andThen (.call .rollBack) (.call .migrate))

theorem forgetting_runOn {filePath : String}
    (h : (indexing filePath).run.runOn db = (.ok (), after))
    (hledger : after.tables.ledger = some (Migration.builtIn.map Migration.note))
    (hothers : after.tables.others = []) :
    (forgetting filePath).run.runOn db = (.ok (), unledgered after) := by
  obtain ⟨mid, hrollback, hrun⟩ := Migrations.run_runOn_of_rollback hledger hothers
  show ((indexing filePath).run >>= fun _ => discard Migrations.builtIn.rollback >>= fun _ =>
    discard Migrations.builtIn.run).runOn db = _
  rw [runOn_bind_ok h, runOn_bind_ok (runOn_discard_ok hrollback), runOn_discard_ok hrun]
  rfl

/-- A file that is indexed again after the ledger was dropped is stored twice. -/
theorem leftovers_survive :
    ¬ ∀ (p : Script) (db after : Database) (base : Path) (options : IndexerOptions)
      (extractor : Extractor) (path content : String) (o : IndexOutcome),
      db ∈ p.visited (Database.opened true) →
      (indexContent base options extractor path content).runOn db = (.ok o, after) →
      o.action = .updated ∨ o.action = .created →
      after.tables.rowsIn (base.normalize path) = o.entities.map .ofEntity := by
  intro h
  let indexed := ((indexing "/a.ts").run.runOn { tables := .migrated }).2
  have hindexed : (indexing "/a.ts").run.runOn { tables := .migrated } = (.ok (), indexed) :=
    Prod.ext (by decide +kernel) rfl
  have hreached : unledgered indexed ∈ (forgetting "/a.ts").visited (Database.opened true) := by
    have hlast : ((forgetting "/a.ts").run.runOn (Database.opened true)).2 =
        unledgered indexed := by
      rw [Database.opened_true,
        forgetting_runOn hindexed (by decide +kernel) (by decide +kernel)]
    exact hlast ▸ (forgetting "/a.ts").final_mem_visited (Database.opened true)
  have hcall : ((indexContent ⟨[]⟩ {} linkExtractor "/a.ts" "").runOn
      (unledgered indexed)).1.toOption.map (fun o => (o.action, o.entities.length)) =
        some (.created, 1) := by
    decide +kernel
  have hstored : (((indexContent ⟨[]⟩ {} linkExtractor "/a.ts" "").runOn
      (unledgered indexed)).2.tables.rowsIn ((⟨[]⟩ : Path).normalize "/a.ts")).length = 2 := by
    decide +kernel
  rcases hrun : (indexContent ⟨[]⟩ {} linkExtractor "/a.ts" "").runOn (unledgered indexed)
    with ⟨result, after⟩
  rw [hrun] at hcall hstored
  cases result with
  | error e => cases hcall
  | ok o =>
    obtain ⟨hcreated, hone⟩ := Prod.mk.inj (Option.some.inj hcall)
    rw [h _ _ _ _ _ _ _ _ o hreached hrun (.inr hcreated), List.length_map, hone] at hstored
    cases hstored

end Indexer

end CodeAtlas
