import CodeAtlas.Error
import CodeAtlas.Store.Tables

/-!
# Databases

A handle on the content of a database: the statements that run on it, and transactions. A
transaction inside of another one is a named savepoint, so that a failing step takes back its own
writes only. What fails changes nothing; what is read inside of a snapshot leaves nothing behind.
-/

namespace CodeAtlas

/-- A point inside a transaction to which it can be taken back. -/
structure Savepoint where
  name : String
  image : Tables

/-- An open database. -/
structure Database where
  tables : Tables := {}
  /-- The content when the transaction in progress began. -/
  begun : Option Tables := none
  /-- The open savepoints, innermost first. -/
  savepoints : List Savepoint := []
  savepointDepth : Nat := 0
  /-- How many ids were given out. Numbers are not taken back with a transaction. -/
  idsUsed : Nat := 0

/-- A computation on a database that may fail. What it wrote before it failed stays, unless a
transaction takes it back. -/
abbrev StoreM := ExceptT Error (StateM Database)

/-! ### Ids -/

/-- The hexadecimal digits of a number, padded with zeros. -/
def hexPadded (width n : Nat) : List Char :=
  let digits := Nat.toDigits 16 n
  List.replicate (width - digits.length) '0' ++ digits

/-- The id of a number: 36 characters in the form of a random UUID. -/
def idOf (n : Nat) : String :=
  "a71a5000-0000-4000-8000-" ++ String.ofList (hexPadded 12 n)

namespace Database

def inTransaction (db : Database) : Bool := db.begun.isSome || !db.savepoints.isEmpty

/-! ### Savepoints -/

def savepoint (name : String) (db : Database) : Database :=
  { db with savepoints := ⟨name, db.tables⟩ :: db.savepoints }

/-- The savepoints from the innermost one of a name on. -/
def from? (name : String) : List Savepoint → List Savepoint
  | [] => []
  | s :: rest => if s.name = name then s :: rest else from? name rest

/-- Forgets a savepoint and those inside of it, and keeps what was written. -/
def release (name : String) (db : Database) : Database :=
  { db with savepoints := (from? name db.savepoints).tail }

/-- Takes the content back to a savepoint, which stays open. -/
def rollbackTo (name : String) (db : Database) : Database :=
  match from? name db.savepoints with
  | [] => db
  | s :: rest => { db with tables := s.image, savepoints := s :: rest }

/-! ### Transactions -/

def «begin» (db : Database) : Database := { db with begun := some db.tables }

def commit (db : Database) : Database := { db with begun := none, savepoints := [] }

def rollback (db : Database) : Database :=
  { db with tables := db.begun.getD db.tables, begun := none, savepoints := [] }

end Database

namespace StoreM

/-- Runs a computation: its result, and the database after it. -/
def runOn (x : StoreM α) (db : Database) : Except Error α × Database := x.run.run db

def ofRun (f : Database → Except Error α × Database) : StoreM α :=
  ExceptT.mk fun db => f db

def lift (x : Except Error α) : StoreM α := ofRun fun db => (x, db)

/-- Reads from the tables. -/
def query (f : Tables → Except Error α) : StoreM α := ofRun fun db => (f db.tables, db)

/-- Runs a statement, which changes nothing when it fails. -/
def execute (f : Tables → Except Error (α × Tables)) : StoreM α := ofRun fun db =>
  match f db.tables with
  | .ok (a, tables) => (.ok a, { db with tables })
  | .error e => (.error e, db)

/-- An id that was never given out before. -/
def freshId : StoreM String := ofRun fun db =>
  (.ok (idOf db.idsUsed), { db with idsUsed := db.idsUsed + 1 })

def inTransaction : StoreM Bool := ofRun fun db => (.ok db.inTransaction, db)

/-- The same computation with its error seen from outside. -/
def mapError (f : Error → Error) (x : StoreM α) : StoreM α := ofRun fun db =>
  match x.runOn db with
  | (.error e, db) => (.error (f e), db)
  | (.ok a, db) => (.ok a, db)

/-- Gives an error as a value. -/
def attempt (x : StoreM α) : StoreM (Except Error α) := ofRun fun db =>
  let (result, db) := x.runOn db
  (.ok result, db)

def savepointName (depth : Nat) : String := "savepoint_" ++ toString depth

/-- Runs a computation between a savepoint and its release. An error takes its writes back. -/
def withinSavepoint (x : StoreM α) : StoreM α := ofRun fun db =>
  let depth := db.savepointDepth + 1
  let name := savepointName depth
  let (result, after) := x.runOn { db.savepoint name with savepointDepth := depth }
  let after := { after with savepointDepth := depth - 1 }
  match result with
  | .ok a => (.ok a, after.release name)
  | .error e => (.error e, (after.rollbackTo name).release name)

/-- Runs a computation as a whole: an error takes back everything that it wrote, and is passed on
unchanged. -/
def transaction (x : StoreM α) : StoreM α := ofRun fun db =>
  if db.inTransaction then (withinSavepoint x).runOn db
  else
    match x.runOn db.begin with
    | (.ok a, after) => (.ok a, after.commit)
    | (.error e, after) => (.error e, after.rollback)

/-- Runs a reading computation on one state of the content. At the outermost level nothing that it
writes stays. -/
def snapshot (x : StoreM α) : StoreM α := ofRun fun db =>
  if db.inTransaction then x.runOn db
  else
    let (result, after) := x.runOn db.begin
    (result, after.rollback)

end StoreM

end CodeAtlas
