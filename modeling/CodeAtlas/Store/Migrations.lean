import CodeAtlas.Store.Database

/-!
# Migrations

The steps by which the schema evolves, each with its reverse. Pending migrations are applied in
ascending order of their versions, each one as a whole; the first failure stops the run. The latest
one can be taken back.
-/

namespace CodeAtlas

/-- A statement on the set of tables. -/
inductive SchemaStatement where
  | create (table : String)
  | createIfMissing (table : String)
  | drop (table : String)
  | dropIfPresent (table : String)
  /-- A statement that cannot be read, from this word on. -/
  | malformed (word : String)
  deriving DecidableEq, Repr

namespace Tables

/-- Table names are told apart without the case of ASCII letters. -/
def sameName (a b : String) : Bool := a.toLower == b.toLower

/-- Whether there is a table of this name. -/
def hasTable (name : String) (t : Tables) : Bool :=
  (sameName name "entities" && t.entities.isSome)
    || (sameName name "relationships" && t.relationships.isSome)
    || (sameName name "files" && t.files.isSome)
    || (sameName name "schema_migrations" && t.ledger.isSome)
    || t.others.any (sameName name)

/-- Drops a table. When the entities go, so do the edges at any of them. -/
def dropTable (name : String) (t : Tables) : Tables :=
  let t := match t.entities with
    | some table =>
      if sameName name "entities" then
        let gone := table.rows.map EntityRow.id
        { t with entities := none }.dropEdges gone.contains
      else t
    | none => t
  { t with
    relationships := if sameName name "relationships" then none else t.relationships
    files := if sameName name "files" then none else t.files
    ledger := if sameName name "schema_migrations" then none else t.ledger
    others := t.others.filter fun other => !sameName name other }

end Tables

namespace SchemaStatement

def run (t : Tables) : SchemaStatement → Except StorageFault Tables
  | .create table =>
    if t.hasTable table then .error (.tableExists table)
    else .ok { t with others := t.others ++ [table] }
  | .createIfMissing table =>
    .ok (if t.hasTable table then t else { t with others := t.others ++ [table] })
  | .drop table => if t.hasTable table then .ok (t.dropTable table) else .error (.noTable table)
  | .dropIfPresent table => .ok (t.dropTable table)
  | .malformed word => .error (.syntaxError word)

end SchemaStatement

/-- A versioned step of the schema: the statements that apply it, and those that take it back. -/
structure Migration where
  version : Int
  name : String
  up : List (Tables → Except StorageFault Tables)
  down : List (Tables → Except StorageFault Tables)

namespace Migration

def ofStatements (version : Int) (name : String) (up down : List SchemaStatement) : Migration :=
  ⟨version, name, up.map fun s t => s.run t, down.map fun s t => s.run t⟩

/-- A table of another shape that has taken a built-in table's name. -/
def ifFree (name column : String) (f : Tables → Tables) (t : Tables) : Except StorageFault Tables :=
  if t.others.any (Tables.sameName name) then .error (.noColumn column) else .ok (f t)

def createEntities : Migration where
  version := 1
  name := "create_entities"
  up := [ifFree "entities" "type" fun t => { t with entities := some (t.entities.getD {}) }]
  down := [fun t => .ok (t.dropTable "entities")]

def createRelationships : Migration where
  version := 2
  name := "create_relationships"
  up := [ifFree "relationships" "source_id" fun t =>
    { t with relationships := some (t.relationships.getD {}) }]
  down := [fun t => .ok (t.dropTable "relationships")]

def createFiles : Migration where
  version := 3
  name := "create_files"
  up := [fun t =>
    .ok (if t.others.any (Tables.sameName "files") then t
      else { t with files := some (t.files.getD {}) })]
  down := [fun t => .ok (t.dropTable "files")]

/-- The migrations of the library itself. -/
def builtIn : List Migration := [createEntities, createRelationships, createFiles]

end Migration

/-- Migrations in ascending order of their versions. -/
structure Migrations where
  defined : List Migration

namespace Migrations

def ofList (migrations : List Migration) : Migrations :=
  ⟨migrations.mergeSort fun a b => a.version ≤ b.version⟩

def builtIn : Migrations := .ofList Migration.builtIn

/-- The first two neighbours of the same version. -/
def repeated? : List Migration → Option (Migration × Migration)
  | a :: b :: rest => if a.version = b.version then some (a, b) else repeated? (b :: rest)
  | _ => none

def checkDefinitions (ms : Migrations) : Except Error Unit :=
  match repeated? ms.defined with
  | some (a, b) => .error (.validation (.versionTwice a.version a.name b.name))
  | none => .ok ()

/-- What was applied, by version. -/
def applied : StoreM (List AppliedMigration) := do
  StoreM.execute fun t => .ok ((), t.ensureLedger)
  StoreM.query fun t =>
    match t.appliedTable with
    | .ok rows => .ok (rows.mergeSort fun a b => a.version ≤ b.version)
    | .error fault => .error (.storage fault)

/-- The defined migrations that were not applied. -/
def pending (ms : Migrations) : StoreM (List Migration) := do
  let done ← applied
  return ms.defined.filter fun m => !done.any (·.version == m.version)

/-- Runs one statement of a migration. -/
def change (f : Tables → Except StorageFault Tables) : StoreM Unit := StoreM.execute fun t =>
  match f t with
  | .ok t => .ok ((), t)
  | .error fault => .error (.storage fault)

/-- Runs the statements of a migration as a whole. -/
def step (m : Migration) (statements : List (Tables → Except StorageFault Tables)) : StoreM Unit :=
  StoreM.mapError (.migration m.version m.name) (StoreM.transaction (statements.forM change))

def apply (m : Migration) : StoreM Unit :=
  step m (m.up ++ [Tables.recordMigration ⟨m.version, m.name⟩])

def revert (m : Migration) : StoreM Unit :=
  step m (m.down ++ [Tables.eraseMigration m.version])

/-- Applies what is pending. Gives how many migrations that were. -/
def run (ms : Migrations) : StoreM Nat := do
  StoreM.lift ms.checkDefinitions
  let waiting ← ms.pending
  waiting.forM apply
  return waiting.length

/-- Takes the latest migration back. Gives whether there was one. -/
def rollback (ms : Migrations) : StoreM Bool := do
  match (← applied).getLast? with
  | none => return false
  | some latest =>
    match ms.defined.find? (·.version == latest.version) with
    | none =>
      StoreM.lift (.error (.migration latest.version latest.name (.validation .irreversible)))
    | some m =>
      revert m
      return true

end Migrations

end CodeAtlas
