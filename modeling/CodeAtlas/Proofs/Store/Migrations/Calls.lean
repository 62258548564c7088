import CodeAtlas.Proofs.Store.Migrated
import CodeAtlas.Proofs.Store.Migrations.Steps

/-!
# Sequences of runs and rollbacks

What the calls of one manager do to a database that starts empty, whichever of them fail.

* `Migrations.Invariant`          what single migrations and their reverses preserve;
* `Migrations.afterCalls_split`   what is applied is a first part of the migrations in their order;
* `Migrations.TablesOf`           the tables of the graph, by the built-in migrations applied;
* `Migrations.run_runOn_of_rollback`  a rollback and a run empty the ledger of files;
* `Migrations.calls_inOrder`      the two together, with what the next call does.
-/

namespace CodeAtlas

open StoreM

namespace Migrations

open Migration

variable {ms : Migrations} {m : Migration} {done waiting : List Migration} {t t' : Tables}
  {db : Database}

/-! ### Sequences of calls -/

/-- a call of a manager -/
inductive Call where
  | run
  | rollBack

/-- the database after a call, whether the call fails or not -/
def call (ms : Migrations) (db : Database) : Call → Database
  | .run => (ms.run.runOn db).2
  | .rollBack => (ms.rollback.runOn db).2

/-- the database after some calls, which was empty before them -/
def afterCalls (ms : Migrations) (calls : List Call) : Database := calls.foldl ms.call {}

/-- Holds of what is applied and of the tables, whatever is applied or taken back. -/
structure Invariant (ms : Migrations) (P : List Migration → Tables → Prop) : Prop where
  empty : P [] {}
  ledger : ∀ {done : List Migration} {t : Tables} (rows : Option (List AppliedMigration)),
    P done t → P done { t with ledger := rows }
  up : ∀ {done waiting : List Migration} {m : Migration} {t t' : Tables},
    ms.defined = done ++ m :: waiting → P done t → effect m.up t = .ok t' → P (done ++ [m]) t'
  down : ∀ {done waiting : List Migration} {m : Migration} {t t' : Tables},
    ms.defined = done ++ m :: waiting → P (done ++ [m]) t → effect m.down t = .ok t' → P done t'

section

variable {P : List Migration → Tables → Prop} {later : List Migration}

theorem Invariant.foldlM_applied? (h : ms.Invariant P)
    (hsplit : ms.defined = done ++ (waiting ++ later)) (hbefore : P done t)
    (happlied : waiting.foldlM applied? t = .ok t') : P (done ++ waiting) t' := by
  induction waiting generalizing done t with
  | nil =>
    rw [← Except.ok.inj happlied, List.append_nil]
    exact hbefore
  | cons m rest ih =>
    rw [List.foldlM_cons] at happlied
    cases heffect : effect m.up t with
    | error fault =>
      rw [applied?, heffect] at happlied
      cases happlied
    | ok u =>
      rw [applied?, heffect] at happlied
      have hstep := h.ledger (some (u.ledger.getD [] ++ [m.note])) (h.up hsplit hbefore heffect)
      rw [List.cons_append, List.append_cons] at hsplit
      rw [List.append_cons]
      exact ih hsplit hstep happlied

/-- What is applied stays a first part of the migrations when the manager is called. -/
theorem call_split (hascending : ms.defined.Pairwise (·.version < ·.version))
    (hkeeps : ∀ m ∈ ms.defined, m.KeepsLedger) (hP : ms.Invariant P)
    (hsplit : ms.defined = done ++ waiting) (hnoted : Noted done db.tables)
    (hbefore : P done db.tables) (c : Call) :
    ∃ done waiting, ms.defined = done ++ waiting ∧ Noted done (ms.call db c).tables ∧
      P done (ms.call db c).tables := by
  have hensured : P done db.tables.ensureLedger := hP.ledger _ hbefore
  cases c with
  | run =>
    obtain ⟨result, after, hrun, houtcome⟩ := run_runOn hsplit hascending hkeeps hnoted
    have hafter : (ms.call db .run).tables = after := by rw [call, hrun]
    rw [hafter]
    cases houtcome with
    | complete happlied hnoted' =>
      rw [← List.append_nil waiting] at hsplit
      refine ⟨done ++ waiting, [], by rw [hsplit, List.append_assoc], hnoted', ?_⟩
      exact hP.foldlM_applied? hsplit hensured happlied
    | @stopped before later m mid fault hwaiting happlied hnoted' hfails =>
      rw [hwaiting] at hsplit
      refine ⟨done ++ before, m :: later, by rw [hsplit, List.append_assoc], hnoted', ?_⟩
      exact hP.foldlM_applied? hsplit hensured happlied
  | rollBack =>
    obtain ⟨result, after, hrun, houtcome⟩ := rollback_runOn hsplit hascending hkeeps hnoted
    have hafter : (ms.call db .rollBack).tables = after := by rw [call, hrun]
    rw [hafter]
    cases houtcome with
    | nothing =>
      exact ⟨[], waiting, hsplit, noted_of_ledger hnoted.ensureLedger, hensured⟩
    | @reverted earlier m t heffect =>
      rw [← List.append_cons] at hsplit
      exact ⟨earlier, m :: waiting, hsplit, rfl, hP.ledger _ (hP.down hsplit hbefore heffect)⟩
    | @failed earlier m fault hfails => exact ⟨earlier ++ [m], waiting, hsplit, hnoted, hbefore⟩

/-- What is applied is a first part of the migrations after every sequence of calls, and an
invariant of the single migrations holds. -/
theorem afterCalls_split (hascending : ms.defined.Pairwise (·.version < ·.version))
    (hkeeps : ∀ m ∈ ms.defined, m.KeepsLedger) (hP : ms.Invariant P) (calls : List Call) :
    ∃ done waiting, ms.defined = done ++ waiting ∧ Noted done (ms.afterCalls calls).tables ∧
      P done (ms.afterCalls calls).tables := by
  have hall : ∀ (db : Database) (done waiting : List Migration), ms.defined = done ++ waiting →
      Noted done db.tables → P done db.tables →
      ∃ done waiting, ms.defined = done ++ waiting ∧ Noted done (calls.foldl ms.call db).tables ∧
        P done (calls.foldl ms.call db).tables := by
    induction calls with
    | nil => exact fun db done waiting hsplit hnoted h => ⟨done, waiting, hsplit, hnoted, h⟩
    | cons c rest ih =>
      intro db done waiting hsplit hnoted h
      obtain ⟨done', waiting', hsplit', hnoted', h'⟩ :=
        call_split hascending hkeeps hP hsplit hnoted h c
      exact ih (ms.call db c) done' waiting' hsplit' hnoted' h'
  exact hall {} [] ms.defined rfl rfl hP.empty

end

/-! ### The built-in migrations -/

/-- Each table of the graph is there if its migration is applied. -/
structure TablesOf (done : List Migration) (t : Tables) : Prop where
  others : t.others = []
  entities : t.entities.isSome ↔ 1 ∈ done.map Migration.version
  relationships : t.relationships.isSome ↔ 2 ∈ done.map Migration.version
  files : t.files.isSome ↔ 3 ∈ done.map Migration.version

theorem sameName_builtIn :
    ∀ a ∈ ["entities", "relationships", "files"],
      ∀ b ∈ ["entities", "relationships", "files", "schema_migrations"],
        Tables.sameName a b = (a == b) := by
  decide +kernel

/-- Dropping a table of the graph leaves the ledger and the other ones. -/
theorem dropTable_builtIn (name : String) (hname : name ∈ ["entities", "relationships", "files"])
    (t : Tables) :
    (t.dropTable name).entities.isSome = (t.entities.isSome && name != "entities") ∧
      (t.dropTable name).relationships.isSome =
        (t.relationships.isSome && name != "relationships") ∧
      (t.dropTable name).files.isSome = (t.files.isSome && name != "files") ∧
      (t.dropTable name).ledger = t.ledger ∧
      (t.dropTable name).others = t.others.filter fun other => !Tables.sameName name other := by
  have hledger : Tables.sameName name "schema_migrations" = false := by
    rw [sameName_builtIn name hname _ (by decide), beq_eq_false_iff_ne]
    rintro rfl
    exact absurd hname (by decide)
  unfold Tables.dropTable
  rw [sameName_builtIn name hname "entities" (by decide),
    sameName_builtIn name hname "relationships" (by decide),
    sameName_builtIn name hname "files" (by decide), hledger, bne, bne, bne]
  obtain ⟨entities, relationships, files, ledger, others⟩ := t
  cases name == "entities" <;> cases name == "relationships" <;> cases name == "files" <;>
    cases entities <;> cases relationships <;> cases files <;>
    exact ⟨rfl, rfl, rfl, rfl, rfl⟩

theorem builtIn_ascending : builtIn.defined.Pairwise (·.version < ·.version) := by
  rw [builtIn_eq]
  decide

theorem mem_builtIn (hm : m ∈ builtIn.defined) :
    m = createEntities ∨ m = createRelationships ∨ m = createFiles := by
  rw [builtIn_eq] at hm
  simpa [Migration.builtIn] using hm

theorem ledger_of_ifFree {name column : String} {f : Tables → Tables}
    (hf : (f t).ledger = t.ledger) (h : ifFree name column f t = .ok t') :
    t'.ledger = t.ledger := by
  unfold ifFree at h
  split at h
  · cases h
  · rw [← Except.ok.inj h, hf]

theorem builtIn_keepsLedger (hm : m ∈ builtIn.defined) : m.KeepsLedger := by
  intro f hf t t' hft
  obtain rfl | rfl | rfl := mem_builtIn hm <;> rcases List.mem_append.mp hf with hf | hf <;>
    rw [List.mem_singleton.mp hf] at hft
  · exact ledger_of_ifFree rfl hft
  · rw [← Except.ok.inj hft, (dropTable_builtIn _ (by decide) t).2.2.2.1]
  · exact ledger_of_ifFree rfl hft
  · rw [← Except.ok.inj hft, (dropTable_builtIn _ (by decide) t).2.2.2.1]
  · rw [← Except.ok.inj hft]
    split <;> rfl
  · rw [← Except.ok.inj hft, (dropTable_builtIn _ (by decide) t).2.2.2.1]

theorem version_notMem (h : (done ++ m :: waiting).Pairwise (·.version < ·.version)) :
    m.version ∉ done.map Migration.version := by
  intro hmem
  obtain ⟨earlier, hearlier, heq⟩ := List.mem_map.mp hmem
  exact Int.ne_of_lt ((List.pairwise_append.mp h).2.2 earlier hearlier m List.mem_cons_self) heq

theorem effect_singleton (f : Tables → Except StorageFault Tables) (t : Tables) :
    effect [f] t = f t := by
  rw [effect_cons]
  cases f t <;> rfl

theorem ifFree_of_others {name column : String} {f : Tables → Tables} (h : t.others = []) :
    ifFree name column f t = .ok (f t) := by
  rw [ifFree, h]
  rfl

theorem TablesOf.up (h : TablesOf done t) (hm : m ∈ builtIn.defined)
    (heffect : effect m.up t = .ok t') : TablesOf (done ++ [m]) t' := by
  obtain rfl | rfl | rfl := mem_builtIn hm
  · rw [createEntities, effect_singleton, ifFree_of_others h.others] at heffect
    cases heffect
    exact ⟨h.others, by simp [createEntities], by simpa [createEntities] using h.relationships,
      by simpa [createEntities] using h.files⟩
  · rw [createRelationships, effect_singleton, ifFree_of_others h.others] at heffect
    cases heffect
    exact ⟨h.others, by simpa [createRelationships] using h.entities,
      by simp [createRelationships], by simpa [createRelationships] using h.files⟩
  · have hup : effect createFiles.up t = .ok { t with files := some (t.files.getD {}) } := by
      rw [createFiles, effect_singleton]
      rw [if_neg (by rw [h.others]; exact Bool.false_ne_true)]
    rw [hup] at heffect
    cases heffect
    exact ⟨h.others, by simpa [createFiles] using h.entities,
      by simpa [createFiles] using h.relationships, by simp [createFiles]⟩

theorem TablesOf.down (h : TablesOf (done ++ [m]) t) (hm : m ∈ builtIn.defined)
    (hnew : m.version ∉ done.map Migration.version)
    (heffect : effect m.down t = .ok t') : TablesOf done t' := by
  have hothers : ∀ name, t.others.filter (fun other => !Tables.sameName name other) = [] := by
    rw [h.others]
    exact fun _ => rfl
  obtain rfl | rfl | rfl := mem_builtIn hm
  · rw [createEntities, effect_singleton] at heffect
    cases heffect
    obtain ⟨he, hr, hf, -, ho⟩ := dropTable_builtIn "entities" (by decide) t
    refine ⟨ho.trans (hothers _), ?_, ?_, ?_⟩
    · simpa [he, createEntities] using hnew
    · simpa [hr, createEntities] using h.relationships
    · simpa [hf, createEntities] using h.files
  · rw [createRelationships, effect_singleton] at heffect
    cases heffect
    obtain ⟨he, hr, hf, -, ho⟩ := dropTable_builtIn "relationships" (by decide) t
    refine ⟨ho.trans (hothers _), ?_, ?_, ?_⟩
    · simpa [he, createRelationships] using h.entities
    · simpa [hr, createRelationships] using hnew
    · simpa [hf, createRelationships] using h.files
  · rw [createFiles, effect_singleton] at heffect
    cases heffect
    obtain ⟨he, hr, hf, -, ho⟩ := dropTable_builtIn "files" (by decide) t
    refine ⟨ho.trans (hothers _), ?_, ?_, ?_⟩
    · simpa [he, createFiles] using h.entities
    · simpa [hr, createFiles] using h.relationships
    · simpa [hf, createFiles] using hnew

theorem builtIn_tablesOf : builtIn.Invariant TablesOf where
  empty := ⟨rfl, by decide, by decide, by decide⟩
  ledger := fun rows h => ⟨h.others, h.entities, h.relationships, h.files⟩
  up := fun hsplit h heffect => h.up (hsplit ▸ List.mem_append_right _ List.mem_cons_self) heffect
  down := fun hsplit h heffect =>
    h.down (hsplit ▸ List.mem_append_right _ List.mem_cons_self)
      (version_notMem (hsplit ▸ builtIn_ascending)) heffect

/-! ### Taking the ledger of files back -/

theorem dropTable_files {t : Tables} (hothers : t.others = []) :
    t.dropTable "files" = { t with files := none } := by
  have hother : ∀ name ∈ ["entities", "relationships", "schema_migrations"],
      Tables.sameName "files" name = false := by decide +kernel
  have hsame : Tables.sameName "files" "files" = true := by decide +kernel
  obtain ⟨entities, relationships, files, ledger, others⟩ := t
  cases hothers
  unfold Tables.dropTable
  rw [hother "entities" (by decide), hother "relationships" (by decide),
    hother "schema_migrations" (by decide), hsame]
  cases entities <;> rfl

theorem rollback_runOn_builtIn {db : Database} (hnoted : Noted Migration.builtIn db.tables)
    (hothers : db.tables.others = []) :
    builtIn.rollback.runOn db = (.ok true, { db with
      tables := { db.tables with
        files := none
        ledger := some ([createEntities, createRelationships].map note) } }) := by
  have hsplit : builtIn.defined = Migration.builtIn ++ [] := by rw [builtIn_eq, List.append_nil]
  obtain ⟨result, after, hrun, houtcome⟩ :=
    rollback_runOn hsplit builtIn_ascending (fun m => builtIn_keepsLedger) hnoted
  have hdown : effect createFiles.down db.tables = .ok { db.tables with files := none } := by
    rw [createFiles, effect_singleton, dropTable_files hothers]
  have hlast : ∀ {earlier : List Migration} {m : Migration},
      Migration.builtIn = earlier ++ [m] →
        [createEntities, createRelationships] = earlier ∧ createFiles = m := by
    intro earlier m hconcat
    have hconcat : [createEntities, createRelationships] ++ [createFiles] = earlier ++ [m] :=
      hconcat
    obtain ⟨hearlier, hm⟩ := List.append_inj' hconcat rfl
    exact ⟨hearlier, List.singleton_inj.mp hm⟩
  rw [hrun]
  generalize hdone : Migration.builtIn = done at houtcome
  cases houtcome with
  | nothing => cases hdone
  | reverted heffect =>
    obtain ⟨rfl, rfl⟩ := hlast hdone
    rw [hdown] at heffect
    rw [← Except.ok.inj heffect]
  | failed hfails =>
    obtain ⟨rfl, rfl⟩ := hlast hdone
    rw [hdown] at hfails
    cases hfails

/-- A rollback and a run leave the ledger of files empty, and the graph as it is. -/
theorem run_runOn_of_rollback {db : Database}
    (hledger : db.tables.ledger = some (Migration.builtIn.map note))
    (hothers : db.tables.others = []) :
    ∃ mid, builtIn.rollback.runOn db = (.ok true, mid) ∧
      builtIn.run.runOn mid =
        (.ok 1, { db with tables := { db.tables with files := some {} } }) := by
  let dropped : Tables := { db.tables with
    files := none
    ledger := some ([createEntities, createRelationships].map note) }
  refine ⟨{ db with tables := dropped },
    rollback_runOn_builtIn (noted_of_ledger hledger) hothers, ?_⟩
  have hsplit : builtIn.defined = [createEntities, createRelationships] ++ [createFiles] := by
    rw [builtIn_eq]
    rfl
  have hnoted : Noted [createEntities, createRelationships] dropped := noted_of_ledger rfl
  have hup : effect createFiles.up dropped.ensureLedger =
      .ok { dropped.ensureLedger with files := some {} } := by
    have hothers' : dropped.ensureLedger.others = [] := hothers
    rw [createFiles, effect_singleton, if_neg (by rw [hothers']; exact Bool.false_ne_true)]
    rfl
  have happlied : [createFiles].foldlM applied? dropped.ensureLedger =
      .ok { db.tables with files := some {} } := by
    rw [List.foldlM_cons, applied?, hup]
    refine congrArg (fun rows => Except.ok { db.tables with files := some {}, ledger := rows }) ?_
    exact hledger.symm
  obtain ⟨result, after, hrun, houtcome⟩ := @run_runOn _ _ _ { db with tables := dropped } hsplit
    builtIn_ascending (fun m => builtIn_keepsLedger) hnoted
  cases houtcome with
  | complete happlied' =>
    rw [hrun, ← Except.ok.inj (happlied.symm.trans happlied')]
    rfl
  | @stopped before later m mid fault hstop happlied' _ hfails =>
    cases before with
    | nil =>
      obtain ⟨rfl, -⟩ := List.cons.inj hstop
      obtain rfl := Except.ok.inj happlied'
      rw [hup] at hfails
      cases hfails
    | cons _ before => exact absurd (List.cons.inj hstop).2 (by simp)

/-! ### What the calls of a manager do -/

/-- `done` is applied and `waiting` is not, and what the next call does in this state. -/
structure InOrder (ms : Migrations) (done waiting : List Migration) (db : Database) : Prop where
  split : ms.defined = done ++ waiting
  applied : (applied.runOn db).1 = .ok (done.map note)
  pending : (ms.pending.runOn db).1 = .ok waiting
  run : ∃ result after, ms.run.runOn db = (result, { db with tables := after }) ∧
    RunOutcome done waiting db.tables.ensureLedger result after
  /-- A run that succeeds leaves nothing pending. -/
  complete : ∀ n after, ms.run.runOn db = (.ok n, after) → (ms.pending.runOn after).1 = .ok []
  rollback : ∃ result after, ms.rollback.runOn db = (result, { db with tables := after }) ∧
    RollbackOutcome db.tables done result after

theorem inOrder_of_noted (hascending : ms.defined.Pairwise (·.version < ·.version))
    (hkeeps : ∀ m ∈ ms.defined, m.KeepsLedger) (hsplit : ms.defined = done ++ waiting)
    (hnoted : Noted done db.tables) : ms.InOrder done waiting db := by
  have hdone := (List.pairwise_append.mp (hsplit ▸ hascending)).1
  refine ⟨hsplit, by rw [hnoted.applied_runOn hdone],
    by rw [hnoted.pending_runOn hsplit hascending], run_runOn hsplit hascending hkeeps hnoted, ?_,
    rollback_runOn hsplit hascending hkeeps hnoted⟩
  intro n after hrun
  obtain ⟨result, tables, hrun', houtcome⟩ := run_runOn hsplit hascending hkeeps hnoted
  obtain ⟨hresult, hafter⟩ := Prod.mk.inj (hrun.symm.trans hrun')
  subst hresult hafter
  cases houtcome with
  | complete _ hnoted' =>
    have hall : ms.defined = (done ++ waiting) ++ [] := by rw [hsplit, List.append_nil]
    rw [Noted.pending_runOn hnoted' hall hascending]

/-- **Migrations are applied and taken back in their order.** For migrations of different versions,
listed in any order, whose statements may fail and leave the ledger alone: after every sequence of
runs and rollbacks, failed ones included, the applied migrations are the first ones by version.

A run that succeeds applies all that is pending in ascending order. One that fails at a migration
has applied the pending ones before it, leaves nothing of the failed one and attempts no later one.
A rollback takes exactly the last one back or fails and changes nothing; where nothing is applied
it gives `false`. The tables of the graph are there exactly if their built-in migrations are
applied. -/
theorem calls_inOrder {migrations : List Migration}
    (hversions : (migrations.map Migration.version).Nodup)
    (hkeeps : ∀ m ∈ migrations, m.KeepsLedger) :
    (ofList migrations).defined.Perm migrations ∧
    (ofList migrations).defined.Pairwise (·.version < ·.version) ∧
    (∀ calls : List Call, ∃ done waiting,
      (ofList migrations).InOrder done waiting ((ofList migrations).afterCalls calls)) ∧
    ∀ calls : List Call,
      let t := (builtIn.afterCalls calls).tables
      let versions := (t.ledger.getD []).map AppliedMigration.version
      (t.entities.isSome ↔ 1 ∈ versions) ∧ (t.relationships.isSome ↔ 2 ∈ versions) ∧
        (t.files.isSome ↔ 3 ∈ versions) := by
  have hascending := ofList_ascending hversions
  have hdefined : ∀ m ∈ (ofList migrations).defined, m.KeepsLedger := fun m hm =>
    hkeeps m ((ofList_perm migrations).mem_iff.mp hm)
  refine ⟨ofList_perm migrations, hascending, fun calls => ?_, fun calls => ?_⟩
  · have htrivial : (ofList migrations).Invariant fun _ _ => True :=
      ⟨trivial, fun _ _ => trivial, fun _ _ _ => trivial, fun _ _ _ => trivial⟩
    obtain ⟨done, waiting, hsplit, hnoted, -⟩ :=
      afterCalls_split hascending hdefined htrivial calls
    exact ⟨done, waiting, inOrder_of_noted hascending hdefined hsplit hnoted⟩
  · intro t versions
    obtain ⟨done, waiting, -, hnoted, htables⟩ := afterCalls_split builtIn_ascending
      (fun m => builtIn_keepsLedger) builtIn_tablesOf calls
    have hversions : versions = done.map Migration.version := by
      show (t.ledger.getD []).map _ = _
      rw [hnoted, List.map_map]
      rfl
    rw [hversions]
    exact ⟨htables.entities, htables.relationships, htables.files⟩

/-- two migrations in descending order, of which the later one fails midway -/
def halting : List Migration :=
  let add (name : String) (t : Tables) : Except StorageFault Tables :=
    .ok { t with others := t.others ++ [name] }
  [⟨2, "second", [add "draft", fun _ => .error (.syntaxError "CREAT")], []⟩,
   ⟨1, "first", [add "notes"], [fun t => .ok { t with others := [] }]⟩]

theorem halting_inOrder : (halting.map Migration.version).Nodup ∧
    (∀ m ∈ halting, m.KeepsLedger) ∧
    ∀ calls : List Call, ∃ done waiting,
      (ofList halting).InOrder done waiting ((ofList halting).afterCalls calls) := by
  have hversions : (halting.map Migration.version).Nodup := by decide
  have hkeeps : ∀ m ∈ halting, m.KeepsLedger := by
    intro m hm f hf t t' hft
    simp only [halting, List.mem_cons, List.not_mem_nil, or_false] at hm
    rcases hm with rfl | rfl <;>
      simp only [List.cons_append, List.nil_append, List.mem_cons, List.not_mem_nil,
        or_false] at hf <;> rcases hf with rfl | rfl <;> cases hft <;> rfl
  exact ⟨hversions, hkeeps, (calls_inOrder hversions hkeeps).2.2.1⟩

end Migrations

end CodeAtlas
