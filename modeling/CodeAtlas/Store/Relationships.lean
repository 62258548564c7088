import CodeAtlas.Store.Database
import CodeAtlas.Store.Entities

/-!
# Stored relationships

Creating, finding and deleting the edges of a database. A single edge that is already there is an
error; a batch passes over it.
-/

namespace CodeAtlas.Relationships

/-! ### Queries -/

def readAll (rows : List RelationshipRow) : Except Error (List Relationship) :=
  match rows.mapM RelationshipRow.read with
  | .ok relationships => .ok relationships
  | .error fault => .error (.storage fault)

def rows (t : Tables) : Except Error (List RelationshipRow) :=
  match t.relationshipTable with
  | .ok table => .ok table.rows
  | .error fault => .error (.storage fault)

/-- The edges that a test selects, in the order of their insertion. -/
def select (test : RelationshipRow → Bool) (t : Tables) : Except Error (List Relationship) := do
  readAll ((← rows t).filter test)

def find? (id : String) (t : Tables) : Except Error (Option Relationship) := do
  return (← select (·.id == id) t).head?

def bySource (id : String) : Tables → Except Error (List Relationship) := select (·.sourceId == id)

def byTarget (id : String) : Tables → Except Error (List Relationship) := select (·.targetId == id)

def byKind (kind : RelationshipKind) : Tables → Except Error (List Relationship) :=
  select (·.kind == kind.name)

/-- The edges of several kinds, kind after kind. -/
def byKinds (kinds : List RelationshipKind) (t : Tables) : Except Error (List Relationship) := do
  return (← kinds.mapM (byKind · t)).flatten

/-- The edges from one entity to another. -/
def between (source target : String) : Tables → Except Error (List Relationship) :=
  select fun r => r.sourceId == source && r.targetId == target

def count (t : Tables) : Except Error Nat := do
  return (← rows t).length

/-- The number of edges of every kind, counted like entities. -/
def countByKind (t : Tables) : Except Error (List (RelationshipKind × Nat)) := do
  let texts := (← rows t).map (·.kind)
  let counts ← (Entities.distinct texts).mapM fun text => do
    return (← RelationshipKind.parse text, texts.count text)
  return RelationshipKind.all.map fun kind => (kind, (counts.reverse.lookup kind).getD 0)

/-! ### Changes -/

/-- Stores an edge under a new id, if it is not to be passed over. -/
def insert (onDuplicate : Tables.OnDuplicate) (new : NewRelationship) :
    StoreM (Option Relationship) := do
  let relationship : Relationship := { new with id := ← StoreM.freshId }
  StoreM.execute fun t =>
    match t.insertRelationship onDuplicate (.ofRelationship relationship) with
    | .ok (true, t) => .ok (some relationship, t)
    | .ok (false, t) => .ok (none, t)
    | .error fault => .error (.ofInsert new.insertion fault)

/-- Stores one edge. Gives nothing only where a duplicate is passed over, so the strict form always
gives the edge. -/
def create (new : NewRelationship) : StoreM Relationship := do
  StoreM.lift new.validate
  match ← insert .fail new with
  | some relationship => return relationship
  | none => StoreM.lift (.error (.storage (.broken .uniqueEdge)))

/-- Stores edges, all of them or none, and passes over those that are already there. Gives the ones
that were new. -/
def createBatch (relationships : List NewRelationship) : StoreM (List Relationship) := do
  StoreM.lift (relationships.forM NewRelationship.validate)
  StoreM.mapError
    (Error.inTransaction ("relationship batch of " ++ toString relationships.length))
    (StoreM.transaction do
      return (← relationships.mapM (insert .skip)).filterMap id)

/-- Deletes the edges that a test selects. Gives how many there were. -/
def deleteWhere (doomed : RelationshipRow → Bool) : StoreM Nat :=
  StoreM.execute fun t =>
    match t.deleteRelationships doomed with
    | .ok r => .ok r
    | .error fault => .error (.storage fault)

def delete (id : String) : StoreM Bool := do
  return 0 < (← deleteWhere (·.id == id))

/-- Deletes the edges at an entity. Gives how many there were. -/
def deleteByEntity (id : String) : StoreM Nat := deleteWhere (·.touches id)

end CodeAtlas.Relationships
