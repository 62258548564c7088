import CodeAtlas.Graph

/-!
# Blast radius

The entities that depend on a file, directly or through others, up to a number of levels. The search
goes breadth first against the direction of the edges: it takes one id after another from a queue
and never comes back to what it has visited, so it ends on cycles too.
-/

namespace CodeAtlas

structure AffectedEntity where
  entity : Entity
  /-- Zero for what depends on the file directly. -/
  depth : Nat
  /-- The kind of the edge by which the entity was reached. -/
  kind : RelationshipKind

structure BlastRadiusSummary where
  totalAffected : Nat := 0
  /-- The deepest level that was reached, zero when nothing is affected. -/
  maxDepth : Nat := 0
  directDependents : Nat := 0
  deriving DecidableEq, Repr

structure BlastRadius where
  sourceFile : String
  affected : List AffectedEntity
  summary : BlastRadiusSummary

namespace BlastRadius

/-- A file on which nothing depends. -/
def empty (sourceFile : String) : BlastRadius := ⟨sourceFile, [], {}⟩

def summarize (affected : List AffectedEntity) : BlastRadiusSummary where
  totalAffected := affected.length
  maxDepth := ((affected.map (·.depth)).max?).getD 0
  directDependents := (affected.filter (·.depth == 0)).length

def toJson (r : BlastRadius) : Json :=
  .object [("sourceFile", .string r.sourceFile),
    ("affectedEntities", Json.list (fun a =>
      .object [("entity", a.entity.toJson), ("depth", .nat a.depth),
        ("relType", .string a.kind.name)]) r.affected),
    ("summary", .object [("totalAffected", .nat r.summary.totalAffected),
      ("maxDepth", .nat r.summary.maxDepth),
      ("directDependents", .nat r.summary.directDependents)])]

/-! ### The search -/

/-- The state of a search. -/
structure Search where
  /-- The ids whose dependents are still to be visited, with the depth of these dependents. -/
  queue : List (String × Nat)
  visited : List String
  affected : List AffectedEntity := []

namespace Search

/-- Follows one link against the direction of its edge. An id without an entity is visited but not
affected. What is affected at the last depth is not expanded. -/
def visit (t : Tables) (maxDepth depth : Nat) (s : Search) (link : Link) : Except Error Search :=
  if s.visited.contains link.entityId then .ok s
  else do
    let visited := link.entityId :: s.visited
    match ← Entities.find? link.entityId t with
    | none => return { s with visited }
    | some entity =>
      return {
        queue := if depth + 1 < maxDepth then s.queue ++ [(link.entityId, depth + 1)] else s.queue
        visited
        affected := s.affected ++ [⟨entity, depth, link.kind⟩] }

/-- Visits the dependents of the first id of the queue. -/
def step (g : DependencyGraph) (t : Tables) (maxDepth : Nat) (s : Search) :
    Except Error (Option Search) :=
  match s.queue with
  | [] => .ok none
  | (id, depth) :: rest =>
    some <$> (g.dependents id).foldlM (visit t maxDepth depth) { s with queue := rest }

/-- Steps until the queue is empty. -/
def loop (g : DependencyGraph) (t : Tables) (maxDepth : Nat) : Nat → Search → Except Error Search
  | 0, s => .ok s
  | fuel + 1, s => do
    match ← s.step g t maxDepth with
    | none => return s
    | some s => loop g t maxDepth fuel s

/-- A search from some ids. -/
def start (seeds : List String) : Search := ⟨seeds.map (·, 0), seeds, []⟩

/-- Every id is in the queue at most once. -/
def bound (g : DependencyGraph) (seeds : List String) : Nat := seeds.length + g.nodeCount

end Search

/-- What depends on anything defined in a file, up to a number of levels. -/
def compute (sourceFile : String) (maxDepth : Nat) (t : Tables) : Except Error BlastRadius := do
  let seeds := (← Entities.byFile sourceFile t).map (·.id)
  if seeds.isEmpty then return empty sourceFile
  else
    let g ← DependencyGraph.load t
    let search ← Search.loop g t maxDepth (Search.bound g seeds) (Search.start seeds)
    return ⟨sourceFile, search.affected, summarize search.affected⟩

/-- With no level at all nothing is read. -/
def run (sourceFile : String) (maxDepth : Nat) : StoreM BlastRadius :=
  if maxDepth = 0 then return empty sourceFile
  else StoreM.snapshot (StoreM.query (compute sourceFile maxDepth))

end BlastRadius

end CodeAtlas
