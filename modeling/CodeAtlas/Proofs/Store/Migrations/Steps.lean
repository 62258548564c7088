import CodeAtlas.Proofs.Store.Ledger
import CodeAtlas.Proofs.Store.Scopes

/-!
# What a run and a rollback do

The effect of a single call of a manager, for migrations in ascending order whose statements may
fail and leave the ledger alone.

* `Migration.effect`              statements one after the other, up to the first one that fails;
* `Migrations.step_runOn`         a migration takes effect as a whole or not at all;
* `Migrations.Noted`              what the ledger says about the applied migrations;
* `Migrations.RunOutcome`, `Migrations.run_runOn`              how a run ends;
* `Migrations.RollbackOutcome`, `Migrations.rollback_runOn`    how a rollback ends.
-/

namespace CodeAtlas

open StoreM

/-! ### Statements -/

namespace Migration

/-- the note of a migration in the ledger -/
def note (m : Migration) : AppliedMigration := ⟨m.version, m.name⟩

/-- the statements leave the ledger alone -/
def KeepsLedger (m : Migration) : Prop :=
  ∀ f ∈ m.up ++ m.down, ∀ t t' : Tables, f t = .ok t' → t'.ledger = t.ledger

/-- statements one after the other, up to the first one that fails -/
def effect (statements : List (Tables → Except StorageFault Tables)) (t : Tables) :
    Except StorageFault Tables :=
  statements.foldlM (fun t f => f t) t

/-- the error of a migration of which a statement fails -/
def failure (m : Migration) (fault : StorageFault) : Error :=
  .migration m.version m.name (.storage fault)

variable {f : Tables → Except StorageFault Tables}
  {statements : List (Tables → Except StorageFault Tables)} {t t' : Tables} {fault : StorageFault}

theorem effect_cons :
    effect (f :: statements) t =
      match f t with
      | .ok t' => effect statements t'
      | .error fault => .error fault := by
  rw [effect, List.foldlM_cons]
  cases f t <;> rfl

theorem effect_concat :
    effect (statements ++ [f]) t =
      match effect statements t with
      | .ok t' => f t'
      | .error fault => .error fault := by
  rw [effect, List.foldlM_append, effect]
  cases statements.foldlM (fun t f => f t) t with
  | error fault => rfl
  | ok t' =>
    show f t' >>= pure = f t'
    cases f t' <;> rfl

theorem effect_ledger (h : ∀ f ∈ statements, ∀ t t' : Tables, f t = .ok t' → t'.ledger = t.ledger)
    (heffect : effect statements t = .ok t') : t'.ledger = t.ledger := by
  induction statements generalizing t with
  | nil => rw [← Except.ok.inj heffect]
  | cons f rest ih =>
    rw [effect_cons] at heffect
    cases hf : f t with
    | error fault =>
      rw [hf] at heffect
      cases heffect
    | ok mid =>
      rw [hf] at heffect
      rw [ih (fun g hg => h g (List.mem_cons_of_mem _ hg)) heffect]
      exact h f List.mem_cons_self t mid hf

end Migration

namespace Migrations

open Migration

variable {ms : Migrations} {m : Migration} {done waiting : List Migration} {t t' after : Tables}
  {fault : StorageFault} {db : Database} {statements : List (Tables → Except StorageFault Tables)}

theorem change_runOn (f : Tables → Except StorageFault Tables) (db : Database) :
    (change f).runOn db =
      match f db.tables with
      | .ok t => (.ok (), { db with tables := t })
      | .error fault => (.error (.storage fault), db) := by
  rw [change, runOn_execute]
  cases f db.tables <;> rfl

theorem forM_change_of_ok (h : effect statements db.tables = .ok t') :
    (statements.forM change).runOn db = (.ok ⟨⟩, { db with tables := t' }) := by
  induction statements generalizing db with
  | nil =>
    rw [← Except.ok.inj h]
    rfl
  | cons f rest ih =>
    show (change f >>= fun _ => rest.forM change).runOn db = _
    have hchange := change_runOn f db
    rw [effect_cons] at h
    cases hf : f db.tables with
    | error fault =>
      rw [hf] at h
      cases h
    | ok mid =>
      rw [hf] at h hchange
      rw [runOn_bind_ok hchange]
      exact ih h

/-- Some of the statements took effect when one of them fails. -/
theorem forM_change_of_error (h : effect statements db.tables = .error fault) :
    ∃ mid, (statements.forM change).runOn db =
      (.error (.storage fault), { db with tables := mid }) := by
  induction statements generalizing db with
  | nil => cases h
  | cons f rest ih =>
    have hrun : ((f :: rest).forM change).runOn db =
      (change f >>= fun _ => rest.forM change).runOn db := rfl
    have hchange := change_runOn f db
    rw [effect_cons] at h
    cases hf : f db.tables with
    | error fault' =>
      rw [hf] at h hchange
      cases h
      exact ⟨db.tables, hrun.trans (runOn_bind_error hchange)⟩
    | ok mid =>
      rw [hf] at h hchange
      obtain ⟨last, hrest⟩ := @ih { db with tables := mid } h
      exact ⟨last, hrun.trans ((runOn_bind_ok hchange).trans hrest)⟩

/-- A migration takes effect as a whole. If one of its statements fails, then those before it are
taken back. -/
theorem step_runOn (m : Migration) (statements : List (Tables → Except StorageFault Tables))
    (db : Database) :
    (step m statements).runOn db =
      match effect statements db.tables with
      | .ok t => (.ok (), { db with tables := t })
      | .error fault => (.error (m.failure fault), db) := by
  have hbalanced : (statements.forM change).Balanced := .forM (fun _ => .execute _) statements
  rw [step, runOn_mapError, hbalanced.runOn_transaction]
  cases heffect : effect statements db.tables with
  | ok t =>
    rw [forM_change_of_ok (by rw [db.entered_tables, heffect]), db.entered_idsUsed]
    rfl
  | error fault =>
    have hentered : effect statements db.entered.tables = .error fault := by
      rw [db.entered_tables, heffect]
    obtain ⟨mid, hrun⟩ := forM_change_of_error hentered
    rw [hrun, db.entered_idsUsed]
    rfl

/-! ### The order of the versions -/

theorem ofList_perm (migrations : List Migration) : (ofList migrations).defined.Perm migrations :=
  List.mergeSort_perm _ _

theorem ofList_ascending {migrations : List Migration}
    (h : (migrations.map Migration.version).Nodup) :
    (ofList migrations).defined.Pairwise (·.version < ·.version) := by
  have hsorted : (ofList migrations).defined.Pairwise (·.version ≤ ·.version) :=
    pairwise_mergeSort_key Migration.version Int.le_trans Int.le_total migrations
  have hdistinct : (ofList migrations).defined.Pairwise fun a b => a.version ≠ b.version :=
    List.pairwise_map.mp (((ofList_perm migrations).map _).nodup_iff.mpr h)
  exact hsorted.imp₂ (fun _ _ hle hne => Int.lt_iff_le_and_ne.mpr ⟨hle, hne⟩) hdistinct

theorem repeated?_of_ascending {migrations : List Migration}
    (h : migrations.Pairwise (·.version < ·.version)) : repeated? migrations = none := by
  induction migrations with
  | nil => rfl
  | cons a rest ih =>
    obtain ⟨hfirst, hrest⟩ := List.pairwise_cons.mp h
    cases rest with
    | nil => rfl
    | cons b rest =>
      rw [repeated?, if_neg (Int.ne_of_lt (hfirst b List.mem_cons_self)), ih hrest]

theorem checkDefinitions_of_ascending (h : ms.defined.Pairwise (·.version < ·.version)) :
    ms.checkDefinitions = .ok () := by
  rw [checkDefinitions, repeated?_of_ascending h]

/-- In ascending order what comes later is not noted yet. -/
theorem any_note_eq_false (h : (done ++ waiting).Pairwise (·.version < ·.version))
    (hm : m ∈ waiting) : (done.map note).any (·.version == m.version) = false := by
  rw [List.any_eq_false]
  intro row hrow heq
  obtain ⟨earlier, hearlier, rfl⟩ := List.mem_map.mp hrow
  have hlt := (List.pairwise_append.mp h).2.2 earlier hearlier m hm
  exact Int.ne_of_lt hlt (eq_of_beq heq)

/-! ### The ledger -/

/-- The ledger notes these migrations and no others. -/
def Noted (done : List Migration) (t : Tables) : Prop := t.ledger.getD [] = done.map note

theorem noted_of_ledger (h : t.ledger = some (done.map note)) : Noted done t :=
  congrArg (Option.getD · []) h

theorem Noted.ensureLedger (h : Noted done t) : t.ensureLedger.ledger = some (done.map note) :=
  congrArg some h

theorem Noted.ledger_of_ne_nil (h : Noted done t) (hne : done ≠ []) :
    t.ledger = some (done.map note) := by
  unfold Noted at h
  cases hledger : t.ledger with
  | some rows =>
    rw [hledger] at h
    exact congrArg some h
  | none =>
    rw [hledger] at h
    exact absurd (List.map_eq_nil_iff.mp h.symm) hne

theorem ensureLedger_of_some {rows : List AppliedMigration} (h : t.ledger = some rows) :
    t.ensureLedger = t := by
  unfold Tables.ensureLedger
  rw [h, Option.getD_some, ← h]

theorem Noted.applied_runOn (h : Noted done db.tables)
    (hascending : done.Pairwise (·.version < ·.version)) :
    applied.runOn db = (.ok (done.map note), { db with tables := db.tables.ensureLedger }) := by
  have hensure : (StoreM.execute fun t => .ok ((), t.ensureLedger)).runOn db =
      (.ok (), { db with tables := db.tables.ensureLedger }) := runOn_execute_ok rfl
  have hsorted : (done.map note).Pairwise fun a b => decide (a.version ≤ b.version) = true :=
    List.pairwise_map.mpr (hascending.imp fun hlt => decide_eq_true (Int.le_of_lt hlt))
  rw [applied, runOn_bind_ok hensure, runOn_query, Tables.appliedTable, h.ensureLedger]
  dsimp only
  rw [List.mergeSort_of_pairwise hsorted]

/-- What is pending are the migrations after the applied ones. -/
theorem Noted.pending_runOn (h : Noted done db.tables) (hsplit : ms.defined = done ++ waiting)
    (hascending : ms.defined.Pairwise (·.version < ·.version)) :
    ms.pending.runOn db = (.ok waiting, { db with tables := db.tables.ensureLedger }) := by
  rw [hsplit] at hascending
  have hdone := (List.pairwise_append.mp hascending).1
  have hnone : done.filter (fun m => !(done.map note).any (·.version == m.version)) = [] := by
    rw [List.filter_eq_nil_iff]
    intro m hm
    rw [Bool.not_eq_true', Bool.not_eq_false]
    exact List.any_eq_true.mpr ⟨m.note, List.mem_map_of_mem hm, beq_self_eq_true _⟩
  have hall : waiting.filter (fun m => !(done.map note).any (·.version == m.version)) =
      waiting := by
    rw [List.filter_eq_self]
    intro m hm
    rw [any_note_eq_false hascending hm, Bool.not_false]
  rw [pending, runOn_bind_ok (h.applied_runOn hdone), runOn_pure, hsplit, List.filter_append,
    hnone, hall, List.nil_append]

/-! ### A run -/

/-- what applying a migration makes of the tables -/
def applied? (t : Tables) (m : Migration) : Except StorageFault Tables :=
  (effect m.up t).map fun t => { t with ledger := some (t.ledger.getD [] ++ [m.note]) }

/-- How a run ends that finds `t`, when `done` is applied and `waiting` is not. -/
inductive RunOutcome (done waiting : List Migration) (t : Tables) :
    Except Error Nat → Tables → Prop where
  | complete {after : Tables} (happlied : waiting.foldlM applied? t = .ok after)
      (hnoted : Noted (done ++ waiting) after) :
      RunOutcome done waiting t (.ok waiting.length) after
  /-- The first migration that fails leaves nothing behind, and no later one is attempted. -/
  | stopped {before later : List Migration} {m : Migration} {mid : Tables} {fault : StorageFault}
      (hsplit : waiting = before ++ m :: later) (happlied : before.foldlM applied? t = .ok mid)
      (hnoted : Noted (done ++ before) mid) (hfails : effect m.up mid = .error fault) :
      RunOutcome done waiting t (.error (m.failure fault)) mid

/-- Recording a migration that was not noted does not fail. -/
theorem apply_runOn (hnew : (done.map note).any (·.version == m.version) = false)
    (hkeeps : m.KeepsLedger) (hledger : db.tables.ledger = some (done.map note)) :
    (apply m).runOn db =
      match applied? db.tables m with
      | .ok t => (.ok (), { db with tables := t })
      | .error fault => (.error (m.failure fault), db) := by
  rw [apply, step_runOn, effect_concat, applied?]
  cases heffect : effect m.up db.tables with
  | error fault => rfl
  | ok t =>
    have hsame : t.ledger = some (done.map note) :=
      (effect_ledger (fun f hf => hkeeps f (List.mem_append_left _ hf)) heffect).trans hledger
    have hrecord : t.recordMigration m.note =
        .ok { t with ledger := some (t.ledger.getD [] ++ [m.note]) } := by
      rw [Tables.recordMigration, Tables.appliedTable, hsame]
      show (if (done.map note).any (·.version == m.version) then _ else _) = _
      rw [hnew]
      rfl
    show (match t.recordMigration m.note with | .ok t => _ | .error fault => _) = _
    rw [hrecord]
    rfl

theorem applied?_ledger (hkeeps : m.KeepsLedger) (hledger : t.ledger = some (done.map note))
    (h : applied? t m = .ok t') : t'.ledger = some ((done ++ [m]).map note) := by
  unfold applied? at h
  cases heffect : effect m.up t with
  | error fault =>
    rw [heffect] at h
    cases h
  | ok u =>
    rw [heffect] at h
    have hsame := effect_ledger (fun f hf => hkeeps f (List.mem_append_left _ hf)) heffect
    rw [← Except.ok.inj h, List.map_append]
    show some (u.ledger.getD [] ++ _) = _
    rw [hsame, hledger]
    rfl

/-- Migrations of which none fails are applied in their order. -/
theorem forM_apply_of_ok (hkeeps : ∀ m ∈ waiting, m.KeepsLedger)
    (hascending : (done ++ waiting).Pairwise (·.version < ·.version))
    (hledger : db.tables.ledger = some (done.map note))
    (h : waiting.foldlM applied? db.tables = .ok after) :
    (waiting.forM apply).runOn db = (.ok ⟨⟩, { db with tables := after }) ∧
      after.ledger = some ((done ++ waiting).map note) := by
  induction waiting generalizing done db with
  | nil =>
    rw [← Except.ok.inj h, List.append_nil]
    exact ⟨rfl, hledger⟩
  | cons m rest ih =>
    have hm := hkeeps m List.mem_cons_self
    have happly := apply_runOn (any_note_eq_false hascending List.mem_cons_self) hm hledger
    rw [List.foldlM_cons] at h
    cases hfirst : applied? db.tables m with
    | error fault =>
      rw [hfirst] at h
      cases h
    | ok mid =>
      rw [hfirst] at h happly
      rw [List.append_cons] at hascending ⊢
      obtain ⟨hrest, hnoted⟩ := @ih (done ++ [m]) { db with tables := mid }
        (fun later hlater => hkeeps later (List.mem_cons_of_mem _ hlater)) hascending
        (applied?_ledger hm hledger hfirst) h
      refine ⟨?_, hnoted⟩
      show (apply m >>= fun _ => rest.forM apply).runOn db = _
      rw [runOn_bind_ok happly]
      exact hrest

/-- The loop of a run stops at the first migration that fails. -/
theorem forM_apply_of_error {before later : List Migration} {mid : Tables}
    (hkeeps : ∀ m' ∈ before ++ m :: later, m'.KeepsLedger)
    (hascending : (done ++ (before ++ m :: later)).Pairwise (·.version < ·.version))
    (hledger : db.tables.ledger = some (done.map note))
    (hbefore : before.foldlM applied? db.tables = .ok mid)
    (hfails : applied? mid m = .error fault) :
    ((before ++ m :: later).forM apply).runOn db =
        (.error (m.failure fault), { db with tables := mid }) ∧
      mid.ledger = some ((done ++ before).map note) := by
  rw [← List.append_assoc] at hascending
  obtain ⟨hrun, hnoted⟩ := forM_apply_of_ok
    (fun m hm => hkeeps m (List.mem_append_left _ hm)) (List.pairwise_append.mp hascending).1
    hledger hbefore
  have hmid : ({ db with tables := mid } : Database).tables.ledger =
    some ((done ++ before).map note) := hnoted
  have happly := apply_runOn (any_note_eq_false hascending List.mem_cons_self)
    (hkeeps m (List.mem_append_right _ List.mem_cons_self)) hmid
  dsimp only at happly
  rw [hfails] at happly
  have happend : (before ++ m :: later).forM apply =
      before.forM apply >>= fun _ => (m :: later).forM apply := List.forM_append
  refine ⟨?_, hnoted⟩
  rw [happend, runOn_bind_ok hrun]
  exact runOn_bind_error happly

/-- Where a loop stops that fails. -/
theorem exists_of_foldlM_error (h : waiting.foldlM applied? t = .error fault) :
    ∃ before m later mid, waiting = before ++ m :: later ∧
      before.foldlM applied? t = .ok mid ∧ applied? mid m = .error fault := by
  induction waiting generalizing t with
  | nil => cases h
  | cons m rest ih =>
    rw [List.foldlM_cons] at h
    cases hfirst : applied? t m with
    | error fault' =>
      rw [hfirst] at h
      cases h
      exact ⟨[], m, rest, t, rfl, rfl, hfirst⟩
    | ok mid =>
      rw [hfirst] at h
      obtain ⟨before, m', later, last, rfl, hbefore, hfails⟩ := ih h
      refine ⟨m :: before, m', later, last, rfl, ?_, hfails⟩
      rw [List.foldlM_cons, hfirst]
      exact hbefore

theorem effect_of_applied?_error (h : applied? t m = .error fault) :
    effect m.up t = .error fault := by
  unfold applied? at h
  cases heffect : effect m.up t with
  | ok u =>
    rw [heffect] at h
    cases h
  | error fault' =>
    rw [heffect] at h
    cases h
    rfl

/-- What a run does to a database on which the migrations `done` are applied. -/
theorem run_runOn (hsplit : ms.defined = done ++ waiting)
    (hascending : ms.defined.Pairwise (·.version < ·.version))
    (hkeeps : ∀ m ∈ ms.defined, m.KeepsLedger) (hnoted : Noted done db.tables) :
    ∃ result after, ms.run.runOn db = (result, { db with tables := after }) ∧
      RunOutcome done waiting db.tables.ensureLedger result after := by
  have hcheck : (lift ms.checkDefinitions).runOn db = (.ok (), db) := by
    rw [checkDefinitions_of_ascending hascending]
    rfl
  have hpending := hnoted.pending_runOn hsplit hascending
  rw [hsplit] at hascending hkeeps
  have hwaiting : ∀ m ∈ waiting, m.KeepsLedger := fun m hm =>
    hkeeps m (List.mem_append_right _ hm)
  have hledger : ({ db with tables := db.tables.ensureLedger } : Database).tables.ledger =
    some (done.map note) := hnoted.ensureLedger
  rw [run, runOn_bind_ok hcheck, runOn_bind_ok hpending]
  cases hfold : waiting.foldlM applied? db.tables.ensureLedger with
  | ok after =>
    obtain ⟨hrun, hafter⟩ := forM_apply_of_ok hwaiting hascending hledger hfold
    refine ⟨.ok waiting.length, after, ?_, .complete hfold (noted_of_ledger hafter)⟩
    rw [runOn_bind_ok hrun]
    rfl
  | error fault =>
    obtain ⟨before, m, later, mid, rfl, hbefore, hfails⟩ := exists_of_foldlM_error hfold
    obtain ⟨hrun, hmid⟩ := forM_apply_of_error hwaiting hascending hledger hbefore hfails
    exact ⟨.error (m.failure fault), mid, runOn_bind_error hrun,
      .stopped rfl hbefore (noted_of_ledger hmid) (effect_of_applied?_error hfails)⟩

/-! ### A rollback -/

/-- How a rollback ends that finds `t`, when `done` is applied. -/
inductive RollbackOutcome (t : Tables) : List Migration → Except Error Bool → Tables → Prop where
  | nothing : RollbackOutcome t [] (.ok false) t.ensureLedger
  | reverted {earlier : List Migration} {m : Migration} {after : Tables}
      (heffect : effect m.down t = .ok after) :
      RollbackOutcome t (earlier ++ [m]) (.ok true)
        { after with ledger := some (earlier.map note) }
  | failed {earlier : List Migration} {m : Migration} {fault : StorageFault}
      (hfails : effect m.down t = .error fault) :
      RollbackOutcome t (earlier ++ [m]) (.error (m.failure fault)) t

theorem filter_note_ne (h : (done ++ [m]).Pairwise (·.version < ·.version)) :
    ((done ++ [m]).map note).filter (·.version != m.version) = done.map note := by
  have hkept : (done.map note).filter (·.version != m.version) = done.map note := by
    rw [List.filter_eq_self]
    intro row hrow
    rw [bne, Bool.not_eq_true', ← Bool.not_eq_true]
    exact List.any_eq_false.mp (any_note_eq_false h (List.mem_singleton_self m)) row hrow
  have hgone : [m.note].filter (·.version != m.version) = [] :=
    List.filter_cons_of_neg (by simp [note])
  rw [List.map_append, List.filter_append, hkept]
  show _ ++ [m.note].filter _ = _
  rw [hgone, List.append_nil]

/-- Taking back the migration that was applied last. -/
theorem revert_runOn (hkeeps : m.KeepsLedger)
    (hascending : (done ++ [m]).Pairwise (·.version < ·.version))
    (hledger : db.tables.ledger = some ((done ++ [m]).map note)) :
    (revert m).runOn db =
      match effect m.down db.tables with
      | .ok t => (.ok (), { db with tables := { t with ledger := some (done.map note) } })
      | .error fault => (.error (m.failure fault), db) := by
  rw [revert, step_runOn, effect_concat]
  cases heffect : effect m.down db.tables with
  | error fault => rfl
  | ok t =>
    have hsame : t.ledger = some ((done ++ [m]).map note) :=
      (effect_ledger (fun f hf => hkeeps f (List.mem_append_right _ hf)) heffect).trans hledger
    have herase : t.eraseMigration m.version =
        .ok { t with ledger := some (done.map note) } := by
      rw [Tables.eraseMigration, Tables.appliedTable, hsame]
      show Except.ok { t with ledger := some (((done ++ [m]).map note).filter _) } = _
      rw [filter_note_ne hascending]
    show (match t.eraseMigration m.version with | .ok t => _ | .error fault => _) = _
    rw [herase]

theorem find?_version (h : (done ++ m :: waiting).Pairwise (·.version < ·.version)) :
    (done ++ m :: waiting).find? (·.version == m.version) = some m := by
  have hbefore : done.find? (·.version == m.version) = none := by
    rw [List.find?_eq_none]
    intro earlier hearlier heq
    have hlt := (List.pairwise_append.mp h).2.2 earlier hearlier m List.mem_cons_self
    exact Int.ne_of_lt hlt (eq_of_beq heq)
  rw [List.find?_append, hbefore, Option.none_or]
  exact List.find?_cons_of_pos (beq_self_eq_true _)

/-- What a rollback does to a database on which the migrations `done` are applied. -/
theorem rollback_runOn (hsplit : ms.defined = done ++ waiting)
    (hascending : ms.defined.Pairwise (·.version < ·.version))
    (hkeeps : ∀ m ∈ ms.defined, m.KeepsLedger) (hnoted : Noted done db.tables) :
    ∃ result after, ms.rollback.runOn db = (result, { db with tables := after }) ∧
      RollbackOutcome db.tables done result after := by
  rw [hsplit] at hascending
  have hdone := (List.pairwise_append.mp hascending).1
  rw [rollback, runOn_bind_ok (hnoted.applied_runOn hdone)]
  rcases List.eq_nil_or_concat done with rfl | ⟨earlier, m, hconcat⟩
  · exact ⟨.ok false, _, rfl, .nothing⟩
  · rw [List.concat_eq_append] at hconcat
    subst hconcat
    have hledger := hnoted.ledger_of_ne_nil (List.append_ne_nil_of_right_ne_nil _ nofun)
    have hlast : ((earlier ++ [m]).map note).getLast? = some m.note := by
      rw [List.map_append]
      exact List.getLast?_concat
    have hfind : ms.defined.find? (·.version == m.note.version) = some m := by
      rw [← List.append_cons] at hascending
      rw [hsplit, ← List.append_cons]
      exact find?_version hascending
    have hm : m.KeepsLedger := hkeeps m (by
      rw [hsplit]
      exact List.mem_append_left _ (List.mem_append_right _ (List.mem_singleton_self m)))
    have hrevert := revert_runOn hm hdone hledger
    rw [hlast]
    dsimp only
    rw [hfind, ensureLedger_of_some hledger]
    cases heffect : effect m.down db.tables with
    | ok t =>
      rw [heffect] at hrevert
      exact ⟨.ok true, _, runOn_bind_ok hrevert, .reverted heffect⟩
    | error fault =>
      rw [heffect] at hrevert
      exact ⟨_, _, runOn_bind_error hrevert, .failed heffect⟩

end Migrations

end CodeAtlas
