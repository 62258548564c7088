import CodeAtlas.Proofs.Store.Scopes

/-!
# What programs do to a store

What a program does to the content of a store, without transactions and savepoints: a block that
fails is left out, one that succeeds is kept within the block around it, a snapshot is left out if
nothing is around it and is transparent otherwise. On a handle the same program begins transactions,
sets and releases savepoints under names that sibling blocks share, and takes the content back to
them; the results and the content at its end are the same.

* `StoreProgram.plain`      what a program does to a content;
* `StoreProgram.runOn_eq`   on any handle, inside of open blocks as well as outside of them;
* `StoreProgram.handle_refines_plain`   on a handle on which nothing is open.
-/

namespace CodeAtlas

/-- What a store holds. The ids that were given out stay so whatever is taken back. -/
structure Content where
  tables : Tables := {}
  idsUsed : Nat := 0

/-- a handle on which nothing is open -/
def Content.handle (c : Content) : Database := { tables := c.tables, idsUsed := c.idsUsed }

namespace Database

def content (db : Database) : Content := ⟨db.tables, db.idsUsed⟩

/-- the same handle on another content -/
def holding (c : Content) (db : Database) : Database :=
  { db with tables := c.tables, idsUsed := c.idsUsed }

@[simp] theorem content_entered (db : Database) : db.entered.content = db.content := by
  unfold content
  rw [entered_tables, entered_idsUsed]

@[simp] theorem inTransaction_entered (db : Database) : db.entered.inTransaction = true := by
  unfold entered
  split
  · exact Bool.or_true _
  · rfl

end Database

namespace StoreProgram

variable {α : Type}

/-- What a program does to a content, with something open around it or not. -/
def plain {α : Type} : StoreProgram α → (inside : Bool) → Content → Except Error α × Content
  | .done r, _, c => (r, c)
  | .read f, _, c => (f c.tables, c)
  | .write f, _, c =>
    match f c.tables with
    | .ok (a, tables) => (.ok a, { c with tables })
    | .error e => (.error e, c)
  | .newId, _, c => (.ok (idOf c.idsUsed), { c with idsUsed := c.idsUsed + 1 })
  | .isInside, inside, c => (.ok inside, c)
  | .andThen p next, inside, c =>
    match p.plain inside c with
    | (.ok a, mid) => (next a).plain inside mid
    | (.error e, mid) => (.error e, mid)
  | .relabel f p, inside, c => ((p.plain inside c).1.mapError f, (p.plain inside c).2)
  | .recover p, inside, c => (.ok (p.plain inside c).1, (p.plain inside c).2)
  | .block p, _, c =>
    match p.plain true c with
    | (.ok a, after) => (.ok a, after)
    | (.error e, after) => (.error e, { c with idsUsed := after.idsUsed })
  | .snapshot p, true, c => p.plain true c
  | .snapshot p, false, c =>
    ((p.plain true c).1, { c with idsUsed := (p.plain true c).2.idsUsed })

/-- On any handle a program does to the content what it does without transactions, and leaves what
is open as it is. -/
theorem runOn_eq (p : StoreProgram α) (db : Database) :
    p.run.runOn db =
      ((p.plain db.inTransaction db.content).1,
        db.holding (p.plain db.inTransaction db.content).2) := by
  induction p generalizing db with
  | done r => rfl
  | read f => rfl
  | write f =>
    rw [run, StoreM.runOn_execute, plain]
    have hcontent : db.content.tables = db.tables := rfl
    rw [hcontent]
    cases f db.tables <;> rfl
  | newId => rfl
  | isInside => rfl
  | andThen p next ihp ihnext =>
    rw [run, StoreM.runOn_bind, ihp, plain]
    rcases p.plain db.inTransaction db.content with ⟨r, mid⟩
    cases r with
    | ok a => exact ihnext a (db.holding mid)
    | error e => rfl
  | relabel f p ih => rw [run, StoreM.runOn_mapError, ih, plain]
  | recover p ih => rw [run, StoreM.runOn_attempt, ih, plain]
  | block p ih =>
    rw [run, p.run_balanced.runOn_transaction, ih, db.inTransaction_entered, db.content_entered,
      plain]
    rcases p.plain true db.content with ⟨r, after⟩
    cases r <;> rfl
  | snapshot p ih =>
    cases hin : db.inTransaction with
    | true => rw [run, StoreM.snapshot_eq_of_inTransaction _ hin, ih, hin, plain]
    | false =>
      rw [run, p.run_balanced.runOn_snapshot hin, ih, db.inTransaction_entered,
        db.content_entered, plain]
      rfl

/-- **Transactions are blocks.** On a handle on which nothing is open, a program gives the result
and leaves the content that it does without transactions, however its blocks, snapshots and
recoveries are nested and whichever of them fail. Afterwards no transaction is open and the
savepoint depth is back at zero. The calls of the library are such programs. -/
theorem handle_refines_plain :
    (∀ {α : Type} (p : StoreProgram α) (c : Content),
      p.run.runOn c.handle = ((p.plain false c).1, (p.plain false c).2.handle) ∧
      (p.run.runOn c.handle).2.inTransaction = false ∧
      (p.run.runOn c.handle).2.savepointDepth = 0) ∧
    ∀ op : Operation, op.run.IsProgram := by
  refine ⟨fun p c => ?_, Operation.run_isProgram⟩
  have hrun : p.run.runOn c.handle = ((p.plain false c).1, (p.plain false c).2.handle) :=
    p.runOn_eq c.handle
  refine ⟨hrun, ?_, ?_⟩
  · rw [hrun]
    rfl
  · rw [hrun]
    rfl

/-- A block that failed inside of another one, with its sibling of the same savepoint name: only
the writes of the sibling stay. -/
example :
    let edit (f : Tables → Tables) := write fun t => .ok ((), f t)
    let p := block <|
      andThen (recover (block (andThen (edit Tables.ensureLedger) fun _ =>
        (done (.error (.validation .irreversible)) : StoreProgram Unit)))) fun _ =>
      block (edit fun t => { t with files := some {} })
    let after := (p.run.runOn ({} : Content).handle).2.tables
    after.files.isSome = true ∧ after.ledger.isSome = false := by decide

end StoreProgram

end CodeAtlas
