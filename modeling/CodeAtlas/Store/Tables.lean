import CodeAtlas.Store.Row

/-!
# Tables

The content of a database, and the statements on it. A statement either succeeds as a whole or
changes nothing. Rows keep the order of their insertion. Three rules hold for edges: both ends are
stored entities, no two edges join the same ends in the same way, and an edge goes with each of its
ends.
-/

namespace CodeAtlas

/-- The rows of a table, and the values by which it turns rows away. -/
structure Table (ρ : Type) where
  rows : List ρ := []
  rejects : List String := []

/-- The ledger of files. Record numbers go up and are never used again. -/
structure FileTable extends Table FileRecord where
  /-- The number of the last record. -/
  lastId : Nat := 0

/-- What a database holds. A table that is not there is `none`. -/
structure Tables where
  entities : Option (Table EntityRow) := none
  relationships : Option (Table RelationshipRow) := none
  files : Option FileTable := none
  /-- The migrations that were applied. -/
  ledger : Option (List AppliedMigration) := none
  /-- The names of further tables. -/
  others : List String := []

namespace Tables

/-! ### Access to tables -/

/-- The fault of using a table that is not there, or not with the columns that it needs. -/
def missing (t : Tables) (name column : String) : StorageFault :=
  if t.others.contains name then .noColumn column else .noTable name

def entityTable (t : Tables) : Except StorageFault (Table EntityRow) :=
  match t.entities with
  | some table => .ok table
  | none => .error (t.missing "entities" "id")

def relationshipTable (t : Tables) : Except StorageFault (Table RelationshipRow) :=
  match t.relationships with
  | some table => .ok table
  | none => .error (t.missing "relationships" "id")

def fileTable (t : Tables) : Except StorageFault FileTable :=
  match t.files with
  | some table => .ok table
  | none => .error (t.missing "files" "id")

def appliedTable (t : Tables) : Except StorageFault (List AppliedMigration) :=
  match t.ledger with
  | some rows => .ok rows
  | none => .error (.noTable "schema_migrations")

/-! ### Entities -/

def hasEntity (t : Tables) (id : String) : Bool :=
  match t.entities with
  | some table => table.rows.any (·.id == id)
  | none => false

def insertEntity (row : EntityRow) (t : Tables) : Except StorageFault Tables := do
  let table ← t.entityTable
  if table.rejects.contains row.name then .error (.broken .rejected)
  else .ok { t with entities := some { table with rows := table.rows ++ [row] } }

/-- The edges that are left when entities go. -/
def dropEdges (gone : String → Bool) (t : Tables) : Tables :=
  { t with relationships := t.relationships.map fun table =>
      { table with rows := table.rows.filter fun r => !gone r.sourceId && !gone r.targetId } }

/-- Deletes entities and every edge at one of them. Gives how many entities there were. -/
def deleteEntities (doomed : EntityRow → Bool) (t : Tables) :
    Except StorageFault (Nat × Tables) := do
  let table ← t.entityTable
  let gone := (table.rows.filter doomed).map (·.id)
  let kept := { table with rows := table.rows.filter fun r => !doomed r }
  .ok (gone.length, { t with entities := some kept }.dropEdges gone.contains)

/-! ### Relationships -/

/-- What inserting an edge that is already there means. -/
inductive OnDuplicate where
  | fail
  | skip
  deriving DecidableEq

/-- Inserts an edge. Gives whether it was new. -/
def insertRelationship (onDuplicate : OnDuplicate) (row : RelationshipRow) (t : Tables) :
    Except StorageFault (Bool × Tables) := do
  let table ← t.relationshipTable
  if t.entities.isNone then .error (.noTable "main.entities")
  else if table.rejects.contains row.kind then .error (.broken .rejected)
  else if table.rows.any (·.sameEdge row) then
    match onDuplicate with
    | .fail => .error (.broken .uniqueEdge)
    | .skip => .ok (false, t)
  else if t.hasEntity row.sourceId && t.hasEntity row.targetId then
    .ok (true, { t with relationships := some { table with rows := table.rows ++ [row] } })
  else .error (.broken .endpoint)

/-- Deletes edges. Gives how many there were. -/
def deleteRelationships (doomed : RelationshipRow → Bool) (t : Tables) :
    Except StorageFault (Nat × Tables) := do
  let table ← t.relationshipTable
  .ok ((table.rows.filter doomed).length,
    { t with relationships := some { table with rows := table.rows.filter fun r => !doomed r } })

/-! ### Files -/

/-- Refreshes the record of a path, or adds one under the next number. The number is used up in
both cases. -/
def upsertFile (filePath contentHash language : String) (t : Tables) :
    Except StorageFault Tables := do
  let table ← t.fileTable
  let next := table.lastId + 1
  if table.rejects.contains language then .error (.broken .rejected)
  else if table.rows.any (·.filePath == filePath) then
    .ok { t with files := some { table with
      rows := table.rows.map fun r =>
        if r.filePath = filePath then { r with contentHash, language } else r
      lastId := next } }
  else
    .ok { t with files := some { table with
      rows := table.rows ++ [⟨next, filePath, contentHash, language⟩]
      lastId := next } }

/-- Deletes the record of a path. Gives whether there was one. -/
def deleteFile (filePath : String) (t : Tables) : Except StorageFault (Bool × Tables) := do
  let table ← t.fileTable
  .ok (table.rows.any (·.filePath == filePath),
    { t with files := some { table with rows := table.rows.filter (·.filePath != filePath) } })

/-! ### Migrations -/

def recordMigration (m : AppliedMigration) (t : Tables) : Except StorageFault Tables := do
  let rows ← t.appliedTable
  if rows.any (·.version == m.version) then .error (.broken .uniqueVersion)
  else .ok { t with ledger := some (rows ++ [m]) }

def eraseMigration (version : Int) (t : Tables) : Except StorageFault Tables := do
  let rows ← t.appliedTable
  .ok { t with ledger := some (rows.filter (·.version != version)) }

/-- Adds the ledger of migrations where there is none. -/
def ensureLedger (t : Tables) : Tables :=
  { t with ledger := some (t.ledger.getD []) }

end Tables

end CodeAtlas
