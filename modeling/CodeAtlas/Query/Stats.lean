import CodeAtlas.Store.FileLedger
import CodeAtlas.Store.Relationships

/-!
# Statistics

How many entities, relationships and files a store holds, by kind.
-/

namespace CodeAtlas

structure Stats where
  entities : Nat
  relationships : Nat
  files : Nat
  entitiesByKind : List (EntityKind × Nat)
  relationshipsByKind : List (RelationshipKind × Nat)
  deriving DecidableEq, Repr

namespace Stats

def compute (t : Tables) : Except Error Stats := do
  return {
    entities := ← Entities.count t
    relationships := ← Relationships.count t
    files := ← FileLedger.count t
    entitiesByKind := ← Entities.countByKind t
    relationshipsByKind := ← Relationships.countByKind t }

def run : StoreM Stats := StoreM.snapshot (StoreM.query compute)

/-- Counts under names. -/
def counts (items : List (String × Nat)) : Json :=
  .object (items.map fun (name, n) => (name, .nat n))

def entityCounts (items : List (EntityKind × Nat)) : Json :=
  counts (items.map fun (kind, n) => (kind.name, n))

def relationshipCounts (items : List (RelationshipKind × Nat)) : Json :=
  counts (items.map fun (kind, n) => (kind.name, n))

def toJson (s : Stats) : Json :=
  .object [("entities", .nat s.entities), ("relationships", .nat s.relationships),
    ("files", .nat s.files), ("entitiesByType", entityCounts s.entitiesByKind),
    ("relationshipsByType", relationshipCounts s.relationshipsByKind)]

def countLine (name : String) (n : Nat) : String := "    " ++ name ++ ": " ++ toString n ++ "\n"

def display (s : Stats) : String :=
  "Code Graph Statistics:\n"
    ++ "  Files: " ++ toString s.files ++ "\n"
    ++ "  Entities: " ++ toString s.entities ++ "\n"
    ++ String.join (s.entitiesByKind.map fun (kind, n) => countLine kind.name n)
    ++ "  Relationships: " ++ toString s.relationships ++ "\n"
    ++ String.join (s.relationshipsByKind.map fun (kind, n) => countLine kind.name n)

end Stats

end CodeAtlas
