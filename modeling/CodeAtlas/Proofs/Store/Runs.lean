import CodeAtlas.Proofs.Store.Statements
import CodeAtlas.Store.Entities
import CodeAtlas.Store.FileLedger
import CodeAtlas.Store.Relationships

/-!
# Running computations on a store

How each way of building a computation runs on a database, as equations for `StoreM.runOn`.

* `runOn_bind`         a sequence runs its second part on what the first one left, if that one
                       did not fail;
* `Sequential`         a property that sequences keep, and so do lists of computations;
* `transaction_eq`     a block is its body, run on the database that the block opens, and then
                       closed by a commit or by a rollback;
* `Database.entered`   the database on which the body of a block starts;
* `Database.left`      what closing a block makes of the database at the end of its body;
* `insert_runOn`       and its likes: a single write is one statement on the tables.
-/

namespace CodeAtlas

namespace Database

/-- the database on which the body of a block starts -/
def entered (db : Database) : Database :=
  if db.inTransaction then
    { db.savepoint (StoreM.savepointName (db.savepointDepth + 1)) with
      savepointDepth := db.savepointDepth + 1 }
  else db.begin

/-- the database after a block that was opened on `db`, when its body ended at `after` -/
def left (db : Database) (kept : Bool) (after : Database) : Database :=
  if db.inTransaction then
    let name := StoreM.savepointName (db.savepointDepth + 1)
    let after := { after with savepointDepth := db.savepointDepth }
    if kept then after.release name else (after.rollbackTo name).release name
  else if kept then after.commit else after.rollback

@[simp] theorem entered_tables (db : Database) : db.entered.tables = db.tables := by
  unfold entered
  split <;> rfl

@[simp] theorem entered_idsUsed (db : Database) : db.entered.idsUsed = db.idsUsed := by
  unfold entered
  split <;> rfl

end Database

namespace StoreM

variable {α β : Type}

/-! ### Steps -/

@[simp] theorem runOn_pure (a : α) (db : Database) :
    (pure a : StoreM α).runOn db = (.ok a, db) := rfl

theorem runOn_bind (x : StoreM α) (f : α → StoreM β) (db : Database) :
    (x >>= f).runOn db =
      match x.runOn db with
      | (.ok a, after) => (f a).runOn after
      | (.error e, after) => (.error e, after) := by
  have hrun : (x >>= f).runOn db = ExceptT.bindCont f (x.runOn db).1 (x.runOn db).2 := rfl
  rw [hrun]
  rcases x.runOn db with ⟨r, after⟩
  cases r <;> rfl

theorem runOn_bind_ok {x : StoreM α} {f : α → StoreM β} {db after : Database} {a : α}
    (h : x.runOn db = (.ok a, after)) : (x >>= f).runOn db = (f a).runOn after := by
  rw [runOn_bind, h]

theorem runOn_bind_error {x : StoreM α} {f : α → StoreM β} {db after : Database} {e : Error}
    (h : x.runOn db = (.error e, after)) : (x >>= f).runOn db = (.error e, after) := by
  rw [runOn_bind, h]

/-- The computations of a list run one after another. -/
theorem runOn_mapM_cons_ok {γ : Type} {f : γ → StoreM α} {c : γ} {cs : List γ}
    {db mid after : Database} {a : α} {as : List α} (hfirst : (f c).runOn db = (.ok a, mid))
    (hrest : (cs.mapM f).runOn mid = (.ok as, after)) :
    ((c :: cs).mapM f).runOn db = (.ok (a :: as), after) := by
  rw [List.mapM_cons, runOn_bind_ok hfirst, runOn_bind_ok hrest, runOn_pure]

theorem runOn_map (g : α → β) (x : StoreM α) (db : Database) :
    (g <$> x).runOn db = ((x.runOn db).1.map g, (x.runOn db).2) := by
  rw [map_eq_pure_bind, runOn_bind]
  rcases x.runOn db with ⟨r, after⟩
  cases r <;> rfl

theorem runOn_discard (x : StoreM α) (db : Database) :
    (discard x).runOn db = ((x.runOn db).1.map fun _ => ⟨⟩, (x.runOn db).2) :=
  runOn_map (fun _ => PUnit.unit) x db

theorem runOn_discard_ok {x : StoreM α} {db after : Database} {a : α}
    (h : x.runOn db = (.ok a, after)) : (discard x).runOn db = (.ok ⟨⟩, after) := by
  rw [runOn_discard, h]
  rfl

@[simp] theorem runOn_ofRun (f : Database → Except Error α × Database) (db : Database) :
    (ofRun f).runOn db = f db := rfl

@[simp] theorem runOn_lift (r : Except Error α) (db : Database) : (lift r).runOn db = (r, db) := rfl

@[simp] theorem runOn_query (f : Tables → Except Error α) (db : Database) :
    (query f).runOn db = (f db.tables, db) := rfl

theorem runOn_query_ok {f : Tables → Except Error α} {db : Database} {a : α}
    (h : f db.tables = .ok a) : (query f).runOn db = (.ok a, db) := by
  rw [runOn_query, h]

@[simp] theorem runOn_freshId (db : Database) :
    freshId.runOn db = (.ok (idOf db.idsUsed), { db with idsUsed := db.idsUsed + 1 }) := rfl

theorem runOn_execute (f : Tables → Except Error (α × Tables)) (db : Database) :
    (execute f).runOn db =
      match f db.tables with
      | .ok (a, tables) => (.ok a, { db with tables })
      | .error e => (.error e, db) := rfl

theorem runOn_execute_ok {f : Tables → Except Error (α × Tables)} {db : Database} {a : α}
    {tables : Tables} (h : f db.tables = .ok (a, tables)) :
    (execute f).runOn db = (.ok a, { db with tables }) := by
  rw [runOn_execute, h]

theorem runOn_mapError (f : Error → Error) (x : StoreM α) (db : Database) :
    (mapError f x).runOn db = ((x.runOn db).1.mapError f, (x.runOn db).2) := by
  unfold mapError
  rw [runOn_ofRun]
  rcases x.runOn db with ⟨r, after⟩
  cases r <;> rfl

theorem runOn_attempt (x : StoreM α) (db : Database) :
    (attempt x).runOn db = (.ok (x.runOn db).1, (x.runOn db).2) := rfl

/-- a run that is known to fail -/
theorem exists_error_of_isOk (x : StoreM α) (db : Database) (h : (x.runOn db).1.isOk = false) :
    ∃ e, x.runOn db = (.error e, (x.runOn db).2) := by
  rcases hr : x.runOn db with ⟨r, after⟩
  rw [hr] at h
  cases r with
  | ok a => cases h
  | error e => exact ⟨e, rfl⟩

/-! ### Properties that sequences keep -/

/-- Every value has the property, and a sequence has it if both of its parts do. -/
structure Sequential (P : (α : Type) → StoreM α → Prop) : Prop where
  pure : ∀ {α : Type} (a : α), P α (pure a)
  bind : ∀ {α β : Type} {x : StoreM α} {f : α → StoreM β}, P α x → (∀ a, P β (f a)) → P β (x >>= f)

namespace Sequential

variable {P : (α : Type) → StoreM α → Prop} {γ : Type}

/-- What a computation makes of the database is a step of a relation; two steps make one. -/
theorem of_relation {R : Database → Database → Prop} (hrefl : ∀ a, R a a)
    (htrans : ∀ {a b c}, R a b → R b c → R a c) :
    Sequential fun _ x => ∀ db, R db (x.runOn db).2 where
  pure _ db := hrefl db
  bind {α β x f} hx hf db := by
    have h := hx db
    rw [runOn_bind]
    revert h
    rcases x.runOn db with ⟨r, after⟩
    intro h
    cases r with
    | ok a => exact htrans h (hf a after)
    | error e => exact h

theorem map (h : Sequential P) {x : StoreM α} (g : α → β) (hx : P α x) : P β (g <$> x) := by
  rw [map_eq_pure_bind]
  exact h.bind hx fun a => h.pure (g a)

theorem mapM (h : Sequential P) {f : γ → StoreM α} (cs : List γ) (hf : ∀ c ∈ cs, P α (f c)) :
    P (List α) (cs.mapM f) := by
  induction cs with
  | nil => exact h.pure []
  | cons c cs ih =>
    rw [List.mapM_cons]
    refine h.bind (hf c List.mem_cons_self) fun a => ?_
    exact h.bind (ih fun c hc => hf c (List.mem_cons_of_mem _ hc)) fun as => h.pure (a :: as)

theorem forM (h : Sequential P) {f : γ → StoreM PUnit} (cs : List γ)
    (hf : ∀ c ∈ cs, P PUnit (f c)) : P PUnit (cs.forM f) := by
  induction cs with
  | nil => exact h.pure PUnit.unit
  | cons c cs ih =>
    exact h.bind (hf c List.mem_cons_self) fun _ => ih fun c hc => hf c (List.mem_cons_of_mem _ hc)

end Sequential

/-! ### Blocks -/

/-- A block is its body between opening and closing. -/
theorem transaction_eq (x : StoreM α) (db : Database) :
    (transaction x).runOn db =
      ((x.runOn db.entered).1, db.left (x.runOn db.entered).1.isOk (x.runOn db.entered).2) := by
  cases h : db.inTransaction with
  | true =>
    have hrun : (transaction x).runOn db = (withinSavepoint x).runOn db := by
      show (if db.inTransaction then _ else _) = _
      rw [h, if_pos rfl]
    rw [hrun]
    simp only [withinSavepoint, runOn_ofRun, Database.entered, Database.left, h, if_true,
      Nat.add_sub_cancel]
    rcases x.runOn _ with ⟨r, after⟩
    cases r <;> rfl
  | false =>
    show (if db.inTransaction then _ else _) = _
    simp only [Database.entered, Database.left, h, Bool.false_eq_true, if_false]
    rcases x.runOn _ with ⟨r, after⟩
    cases r <;> rfl

theorem snapshot_eq_of_inTransaction (x : StoreM α) {db : Database} (h : db.inTransaction = true) :
    (snapshot x).runOn db = x.runOn db := by
  show (if db.inTransaction then _ else _) = _
  rw [h, if_pos rfl]

theorem snapshot_eq (x : StoreM α) {db : Database} (h : db.inTransaction = false) :
    (snapshot x).runOn db = ((x.runOn db.begin).1, (x.runOn db.begin).2.rollback) := by
  show (if db.inTransaction then _ else _) = _
  rw [h]
  rfl

/-- Reading in a snapshot changes nothing. -/
theorem runOn_snapshot_query (f : Tables → Except Error α) (db : Database) :
    (snapshot (query f)).runOn db = (f db.tables, db) := by
  cases hin : db.inTransaction with
  | true => rw [snapshot_eq_of_inTransaction _ hin, runOn_query]
  | false =>
    rw [snapshot_eq _ hin, runOn_query]
    obtain ⟨t, b, s, d, n⟩ := db
    simp only [Database.inTransaction, Bool.or_eq_false_iff, Bool.not_eq_false',
      List.isEmpty_iff, Option.isSome_eq_false_iff, Option.isNone_iff_eq_none] at hin
    obtain ⟨rfl, rfl⟩ := hin
    rfl

end StoreM

/-! ### Single writes -/

open StoreM

namespace Entities

theorem insert_runOn (new : NewEntity) (db : Database) :
    (insert new).runOn db =
      match db.tables.insertEntity (.ofEntity { new with id := idOf db.idsUsed }) with
      | .ok tables =>
        (.ok { new with id := idOf db.idsUsed }, { db with tables, idsUsed := db.idsUsed + 1 })
      | .error fault =>
        (.error (.ofInsert ("insert entity '" ++ new.name ++ "'") fault),
          { db with idsUsed := db.idsUsed + 1 }) := by
  rw [insert, runOn_bind_ok (runOn_freshId db), runOn_execute]
  dsimp only
  cases db.tables.insertEntity _ <;> rfl

theorem deleteWhere_runOn (doomed : EntityRow → Bool) (db : Database) :
    (deleteWhere doomed).runOn db =
      match db.tables.deleteEntities doomed with
      | .ok (n, tables) => (.ok n, { db with tables })
      | .error fault => (.error (.storage fault), db) := by
  rw [deleteWhere, runOn_execute]
  cases db.tables.deleteEntities doomed <;> rfl

theorem deleteWhere_eq_ok {doomed : EntityRow → Bool} {db after : Database} {n : Nat} :
    (deleteWhere doomed).runOn db = (.ok n, after) ↔
      db.tables.entities.isSome = true ∧ n = (db.tables.entityRows.filter doomed).length ∧
        after = { db with tables := db.tables.without doomed } := by
  rw [deleteWhere_runOn]
  cases hdelete : db.tables.deleteEntities doomed with
  | error fault =>
    refine iff_of_false nofun fun h => ?_
    rw [Tables.deleteEntities_eq_ok.mpr ⟨h.1, rfl, rfl⟩] at hdelete
    cases hdelete
  | ok result =>
    obtain ⟨count, tables⟩ := result
    obtain ⟨hents, rfl, rfl⟩ := Tables.deleteEntities_eq_ok.mp hdelete
    dsimp only
    rw [Prod.mk.injEq, Except.ok.injEq, and_iff_right hents]
    exact and_congr eq_comm eq_comm

end Entities

namespace Relationships

theorem insert_runOn (onDuplicate : Tables.OnDuplicate) (new : NewRelationship) (db : Database) :
    (insert onDuplicate new).runOn db =
      match db.tables.insertRelationship onDuplicate
          (.ofRelationship { new with id := idOf db.idsUsed }) with
      | .ok (isNew, tables) =>
        (.ok (if isNew then some { new with id := idOf db.idsUsed } else none),
          { db with tables, idsUsed := db.idsUsed + 1 })
      | .error fault =>
        (.error (.ofInsert new.insertion fault), { db with idsUsed := db.idsUsed + 1 }) := by
  rw [insert, runOn_bind_ok (runOn_freshId db), runOn_execute]
  dsimp only
  rcases db.tables.insertRelationship onDuplicate _ with fault | ⟨isNew, tables⟩
  · rfl
  · cases isNew <;> rfl

end Relationships

namespace FileLedger

theorem delete_runOn (filePath : String) (db : Database) :
    (delete filePath).runOn db =
      match db.tables.deleteFile filePath with
      | .ok (there, tables) => (.ok there, { db with tables })
      | .error fault => (.error (.storage fault), db) := by
  rw [delete, runOn_execute]
  cases db.tables.deleteFile filePath <;> rfl

theorem delete_eq_ok {filePath : String} {db after : Database} {there : Bool} :
    (delete filePath).runOn db = (.ok there, after) ↔
      db.tables.files.isSome = true ∧
        there = db.tables.fileRecords.any (·.filePath == filePath) ∧
        after = { db with tables := db.tables.unrecorded (· == filePath) } := by
  rw [delete_runOn]
  cases hdelete : db.tables.deleteFile filePath with
  | error fault =>
    refine iff_of_false nofun fun h => ?_
    rw [Tables.deleteFile_eq_ok.mpr ⟨h.1, rfl, rfl⟩] at hdelete
    cases hdelete
  | ok result =>
    obtain ⟨known, tables⟩ := result
    obtain ⟨hfiles, rfl, rfl⟩ := Tables.deleteFile_eq_ok.mp hdelete
    dsimp only
    rw [Prod.mk.injEq, Except.ok.injEq, and_iff_right hfiles]
    exact and_congr eq_comm eq_comm

end FileLedger

end CodeAtlas
