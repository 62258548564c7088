import CodeAtlas.Store.Entities
import CodeAtlas.Store.Relationships

/-!
# Callers and callees

The entities one call away from all entities of a name.
-/

namespace CodeAtlas.Calls

/-- Which way calls are followed. -/
inductive Direction where
  | toCallers
  | toCallees
  deriving DecidableEq

namespace Direction

def edges : Direction → String → Tables → Except Error (List Relationship)
  | .toCallers => Relationships.byTarget
  | .toCallees => Relationships.bySource

def farEnd : Direction → Relationship → String
  | .toCallers, r => r.sourceId
  | .toCallees, r => r.targetId

end Direction

/-- The far ends of the calls at one entity, in the order of insertion. -/
def farEnds (d : Direction) (id : String) (t : Tables) : Except Error (List String) := do
  return ((← d.edges id t).filter (·.kind == .calls)).map d.farEnd

/-- Looks up ids that were not seen before, in order. Gives what was found, and what was seen. -/
def lookUpNew (t : Tables) (seen : List String) :
    List String → Except Error (List Entity × List String)
  | [] => .ok ([], seen)
  | id :: rest => do
    if seen.contains id then lookUpNew t seen rest
    else
      let found ← Entities.find? id t
      let (entities, seen) ← lookUpNew t (id :: seen) rest
      return (found.toList ++ entities, seen)

/-- What is one call away from some entities, entity after entity. -/
def follow (d : Direction) (t : Tables) (seen : List String) :
    List Entity → Except Error (List Entity)
  | [] => .ok []
  | start :: rest => do
    let (found, seen) ← lookUpNew t seen (← farEnds d start.id t)
    return found ++ (← follow d t seen rest)

/-- Every entity one call away from an entity of the name, each one once. -/
def neighbours (d : Direction) (name : String) (t : Tables) : Except Error (List Entity) := do
  follow d t [] (← Entities.byName name t)

def callers (name : String) : StoreM (List Entity) :=
  StoreM.snapshot (StoreM.query (neighbours .toCallers name))

def callees (name : String) : StoreM (List Entity) :=
  StoreM.snapshot (StoreM.query (neighbours .toCallees name))

end CodeAtlas.Calls
