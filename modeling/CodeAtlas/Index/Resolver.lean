import CodeAtlas.Extraction
import CodeAtlas.Store.Entities
import CodeAtlas.Store.Relationships

/-!
# Resolving names

Relationships that name their ends become edges between stored entities. An end is looked up by its
file path and its name; of several entities with the same key the most recent one is meant, whether
it was stored before or belongs to the batch. A relationship with an end that is not found is
dropped, which is no error.
-/

namespace CodeAtlas

/-- The ids of entities by file path and name, most recent first. -/
structure EntityCache where
  entries : List ((String × String) × String) := []

namespace EntityCache

/-- Resolves a name in a file; without a file nothing is found. -/
def lookup (c : EntityCache) (filePath : Option String) (name : String) : Option String :=
  filePath.bind fun path => c.entries.lookup (path, name)

/-- Adds an entity. Gives the id that its key meant before, if any. -/
def insert (c : EntityCache) (filePath name id : String) : Option String × EntityCache :=
  (c.entries.lookup (filePath, name), ⟨((filePath, name), id) :: c.entries⟩)

/-- The number of files with an entity. -/
def files (c : EntityCache) : Nat := (c.entries.map (·.1.1)).eraseDups.length

/-- The cache of some rows in the order of their insertion. -/
def ofRows (rows : List EntityRow) : EntityCache :=
  rows.foldl (fun c r => (c.insert r.filePath r.name r.id).2) {}

/-- The cache of all stored entities. Only ids, names and paths are read. -/
def load (t : Tables) : Except Error EntityCache := do
  return ofRows (← Entities.rows t)

end EntityCache

/-- Two entities claimed the same file and name, and the later one won. -/
structure NameCollision where
  filePath : String
  name : String
  shadowedId : String
  winnerId : String
  deriving DecidableEq, Repr

def NameCollision.toJson (c : NameCollision) : Json :=
  .object [("filePath", .string c.filePath), ("name", .string c.name),
    ("shadowedId", .string c.shadowedId), ("winnerId", .string c.winnerId)]

/-- What one batch of the resolver did. -/
structure ResolutionReport where
  entities : List Entity
  relationships : List Relationship
  /-- How many relationships had both ends. -/
  resolved : Nat
  /-- How many of those were already there. -/
  duplicates : Nat
  /-- How many relationships lacked an end. -/
  dropped : Nat
  collisions : List NameCollision

namespace ResolutionReport

def toJson (r : ResolutionReport) : Json :=
  .object [("entities", Json.list Entity.toJson r.entities),
    ("relationships", Json.list Relationship.toJson r.relationships),
    ("resolved", .nat r.resolved), ("duplicates", .nat r.duplicates), ("dropped", .nat r.dropped),
    ("collisions", Json.list NameCollision.toJson r.collisions)]

def display (r : ResolutionReport) : String :=
  "Cross-File Resolver:\n"
    ++ "  Entities inserted: " ++ toString r.entities.length ++ "\n"
    ++ "  Relationships resolved: " ++ toString r.resolved ++ "\n"
    ++ "  Relationships inserted: " ++ toString r.relationships.length ++ "\n"
    ++ "  Duplicates ignored: " ++ toString r.duplicates ++ "\n"
    ++ "  Unresolved (dropped): " ++ toString r.dropped ++ "\n"
    ++ "  Name collisions: " ++ toString r.collisions.length ++ "\n"

end ResolutionReport

namespace Resolver

/-- Adds stored entities to a cache, one after another, and lists the keys that were taken. -/
def cacheAll (c : EntityCache) : List Entity → EntityCache × List NameCollision
  | [] => (c, [])
  | e :: rest =>
    let (shadowed, c) := c.insert e.filePath e.name e.id
    let (c, collisions) := cacheAll c rest
    match shadowed with
    | some id => (c, ⟨e.filePath, e.name, id, e.id⟩ :: collisions)
    | none => (c, collisions)

/-- The edge that a relationship means, if both of its ends are found. -/
def bind? (c : EntityCache) (r : ExtractedRelationship) : Option NewRelationship :=
  match c.lookup r.sourceFilePath r.sourceName, c.lookup r.targetFilePath r.targetName with
  | some sourceId, some targetId =>
    some { sourceId, targetId, kind := r.kind, metadata := r.metadata }
  | _, _ => none

/-- Stores entities and then the relationships between them and those that are stored already. -/
def resolveWithin (entities : List NewEntity) (relationships : List ExtractedRelationship) :
    StoreM ResolutionReport := do
  let cache ← StoreM.query EntityCache.load
  let inserted ← Entities.createBatch entities
  let (cache, collisions) := cacheAll cache inserted
  let edges := relationships.filterMap (bind? cache)
  let created ← Relationships.createBatch edges
  return {
    entities := inserted
    relationships := created
    resolved := edges.length
    duplicates := edges.length - created.length
    dropped := relationships.length - edges.length
    collisions }

/-- Resolves a batch as a whole. -/
def resolve (entities : List NewEntity) (relationships : List ExtractedRelationship) :
    StoreM ResolutionReport :=
  StoreM.mapError
    (Error.inTransaction ("resolver batch of " ++ toString entities.length ++ " entities, "
      ++ toString relationships.length ++ " relationships"))
    (StoreM.transaction (resolveWithin entities relationships))

end Resolver

end CodeAtlas
