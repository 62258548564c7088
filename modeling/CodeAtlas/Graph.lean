import CodeAtlas.Store.Relationships

/-!
# The dependency graph

The dependency edges of a store, loaded once and then followed in both directions. Ids are listed in
the order in which they were first seen; structural edges do not count.
-/

namespace CodeAtlas

/-- One end of an edge as seen from the other end. -/
structure Link where
  entityId : String
  kind : RelationshipKind
  deriving DecidableEq, Repr

/-- Links under ids. -/
abbrev LinkIndex := List (String × List Link)

namespace LinkIndex

def links (index : LinkIndex) (id : String) : List Link := (index.lookup id).getD []

def hasKey (index : LinkIndex) (id : String) : Bool := (index.lookup id).isSome

/-- Makes room for the links of an id. -/
def reserve (id : String) (index : LinkIndex) : LinkIndex :=
  if index.hasKey id then index else index ++ [(id, [])]

/-- Adds a link to the links of an id, if there is room for them. -/
def add (id : String) (link : Link) (index : LinkIndex) : LinkIndex :=
  index.map fun (key, links) => (key, if key = id then links ++ [link] else links)

end LinkIndex

/-- Dependency edges under the ids of both ends. -/
structure DependencyGraph where
  /-- What each id depends on. -/
  outgoing : LinkIndex := []
  /-- What depends on each id. -/
  incoming : LinkIndex := []
  /-- Every id, in the order in which they were first seen. -/
  nodes : List String := []
  edgeCount : Nat := 0

namespace DependencyGraph

/-- Makes room for an id in both directions, and lists it when it is seen for the first time. -/
def reserve (g : DependencyGraph) (id : String) : DependencyGraph :=
  { g with
    outgoing := g.outgoing.reserve id
    incoming := g.incoming.reserve id
    nodes := if g.outgoing.hasKey id || g.incoming.hasKey id then g.nodes else g.nodes ++ [id] }

/-- Adds an edge, unless it is structural. -/
def addEdge (g : DependencyGraph) (source target : String) (kind : RelationshipKind) :
    DependencyGraph :=
  if kind.isDependency then
    let g := (g.reserve source).reserve target
    { g with
      outgoing := g.outgoing.add source ⟨target, kind⟩
      incoming := g.incoming.add target ⟨source, kind⟩
      edgeCount := g.edgeCount + 1 }
  else g

def ofRelationships (relationships : List Relationship) : DependencyGraph :=
  relationships.foldl (fun g r => g.addEdge r.sourceId r.targetId r.kind) {}

/-- The graph of every dependency edge of a store. -/
def load (t : Tables) : Except Error DependencyGraph := do
  return ofRelationships (← Relationships.byKinds RelationshipKind.dependencies t)

/-- What an id depends on. -/
def dependencies (g : DependencyGraph) (id : String) : List Link := g.outgoing.links id

/-- What depends on an id. -/
def dependents (g : DependencyGraph) (id : String) : List Link := g.incoming.links id

def nodeCount (g : DependencyGraph) : Nat := g.nodes.length

end DependencyGraph

end CodeAtlas
