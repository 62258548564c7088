import CodeAtlas.Pattern.Like
import CodeAtlas.Store.Database

/-!
# Stored entities

Creating, finding and deleting the entities of a database. Input is checked before anything is
written, a batch is written as a whole, and deleting an entity takes its relationships with it.
-/

namespace CodeAtlas.Entities

/-! ### Queries -/

/-- Reads the rows that a query selects, all of them or none. -/
def readAll (rows : List EntityRow) : Except Error (List Entity) :=
  match rows.mapM EntityRow.read with
  | .ok entities => .ok entities
  | .error fault => .error (.storage fault)

def rows (t : Tables) : Except Error (List EntityRow) :=
  match t.entityTable with
  | .ok table => .ok table.rows
  | .error fault => .error (.storage fault)

/-- File paths in ascending order, start lines within a file. -/
def placeLe (a b : EntityRow) : Bool :=
  a.filePath < b.filePath || (a.filePath == b.filePath && a.startLine.le b.startLine)

/-- Names in ascending order, places within a name. -/
def nameLe (a b : EntityRow) : Bool :=
  a.name < b.name || (a.name == b.name && placeLe a b)

def find? (id : String) (t : Tables) : Except Error (Option Entity) := do
  return (← readAll ((← rows t).filter (·.id == id))).head?

/-- The entities of exactly this name, by file and start line. -/
def byName (name : String) (t : Tables) : Except Error (List Entity) := do
  readAll (((← rows t).filter (·.name == name)).mergeSort placeLe)

/-- A limit as the signed number of 64 bits that it is passed on as. -/
def signedLimit (limit : Nat) : Int := Int.bmod limit (Nat.pow 2 64)

/-- The first rows up to a limit; a negative limit is none. -/
def takeSigned : Int → List EntityRow → List EntityRow
  | .ofNat limit, rows => rows.take limit
  | .negSucc _, rows => rows

/-- The rows whose name matches a pattern. A pattern that is too long fails on the first row that it
is compared with, so it does not where there is none, or where none is asked for. -/
def matching (pattern : String) (limit : Int) (rows : List EntityRow) :
    Except Error (List EntityRow) :=
  if Like.maxBytes < pattern.utf8ByteSize ∧ rows ≠ [] ∧ limit ≠ 0 then
    .error (.storage .patternTooLong)
  else .ok (rows.filter fun r => Like.matches pattern r.name)

/-- The first entities whose name contains a text, by name and place. -/
def search (text : String) (limit : Nat) (t : Tables) : Except Error (List Entity) := do
  let hits ← matching (Like.containing text) (signedLimit limit) (← rows t)
  readAll (takeSigned (signedLimit limit) (hits.mergeSort nameLe))

/-- The entities of a kind, by file and start line. -/
def byKind (kind : EntityKind) (t : Tables) : Except Error (List Entity) := do
  readAll (((← rows t).filter (·.kind == kind.name)).mergeSort placeLe)

/-- The entities of exactly this file path, by start line. -/
def byFile (filePath : String) (t : Tables) : Except Error (List Entity) := do
  readAll (((← rows t).filter (·.filePath == filePath)).mergeSort fun a b =>
    a.startLine.le b.startLine)

/-- The entities of a file, of one kind only if one is given. -/
def inFile (filePath : String) (kind : Option EntityKind) (t : Tables) :
    Except Error (List Entity) := do
  let entities ← byFile filePath t
  return match kind with
    | some kind => entities.filter (·.kind == kind)
    | none => entities

/-- All entities in the order of their insertion. -/
def all (t : Tables) : Except Error (List Entity) := do
  readAll (← rows t)

def count (t : Tables) : Except Error Nat := do
  return (← rows t).length

/-- The texts of a list, each one once, in ascending order. -/
def distinct (texts : List String) : List String :=
  (texts.mergeSort (· ≤ ·)).eraseDups

/-- The number of entities of every kind, in the order of the kinds. The stored texts are visited in
ascending order, and the last one that names a kind sets its number. -/
def countByKind (t : Tables) : Except Error (List (EntityKind × Nat)) := do
  let texts := (← rows t).map (·.kind)
  let counts ← (distinct texts).mapM fun text => do
    return (← EntityKind.parse text, texts.count text)
  return EntityKind.all.map fun kind => (kind, (counts.reverse.lookup kind).getD 0)

/-! ### Changes -/

/-- Stores an entity under a new id, without a check of its input. -/
def insert (new : NewEntity) : StoreM Entity := do
  let entity : Entity := { new with id := ← StoreM.freshId }
  StoreM.execute fun t =>
    match t.insertEntity (.ofEntity entity) with
    | .ok t => .ok (entity, t)
    | .error fault => .error (.ofInsert ("insert entity '" ++ new.name ++ "'") fault)

def create (new : NewEntity) : StoreM Entity := do
  StoreM.lift new.validate
  insert new

/-- Stores entities, all of them or none. -/
def createBatch (entities : List NewEntity) : StoreM (List Entity) := do
  StoreM.lift (entities.forM NewEntity.validate)
  StoreM.mapError (Error.inTransaction ("entity batch of " ++ toString entities.length))
    (StoreM.transaction (entities.mapM insert))

/-- Deletes the entities that a test selects. Gives how many there were. -/
def deleteWhere (doomed : EntityRow → Bool) : StoreM Nat :=
  StoreM.execute fun t =>
    match t.deleteEntities doomed with
    | .ok r => .ok r
    | .error fault => .error (.storage fault)

/-- Deletes an entity. Gives whether there was one. -/
def delete (id : String) : StoreM Bool := do
  return 0 < (← deleteWhere (·.id == id))

/-- Deletes the entities of a file. Gives how many there were. -/
def deleteByFile (filePath : String) : StoreM Nat := deleteWhere (·.filePath == filePath)

end CodeAtlas.Entities
