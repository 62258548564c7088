import CodeAtlas.Graph

/-!
# Circular dependencies

A depth-first search that reports a cycle whenever an edge leads back to the path under search. What
the search has left is not entered again, also not from a later start, so every edge is followed at
most once. The search keeps its path, the edges of it and the place of each entity on it as a state
that one step after another transforms.
-/

namespace CodeAtlas

namespace Cycles

structure Options where
  /-- Start only from entities of this name. -/
  entityName : Option String := none
  /-- Stop after this many cycles; zero is no limit. -/
  maxCycles : Nat := 100
  deriving DecidableEq, Repr

/-- A cycle as ids, and the kinds of its edges; the last edge leads back to the first id. -/
structure Found where
  ids : List String
  links : List RelationshipKind
  deriving DecidableEq, Repr

/-- An entity under search and how many of its links were followed. -/
structure Frame where
  node : String
  next : Nat
  deriving DecidableEq, Repr

/-- The state of a search from one start. -/
structure Search where
  /-- The entities under search, innermost first. -/
  frames : List Frame
  /-- The same entities, outermost first. -/
  path : List String
  /-- The kinds of the edges along the path. -/
  pathLinks : List RelationshipKind
  /-- The places of the entities on the path. -/
  onStack : List (String × Nat)
  /-- The entities that the search has left. -/
  done : List String
  /-- The signatures of the cycles that were found. -/
  seen : List (List String)
  /-- The cycles that were found. -/
  found : List Found
  deriving DecidableEq, Repr

/-- The place of the least id. -/
def leastPlace : List String → Nat
  | [] => 0
  | [_] => 0
  | a :: b :: rest =>
    let place := leastPlace (b :: rest)
    if a ≤ (b :: rest).getD place a then 0 else place + 1

/-- A cycle turned so that its least id comes first. -/
def signature (ids : List String) : List String :=
  ids.drop (leastPlace ids) ++ ids.take (leastPlace ids)

namespace Search

def record (s : Search) (cycle : Found) : Search :=
  let sign := signature cycle.ids
  if s.seen.contains sign then s
  else { s with seen := sign :: s.seen, found := s.found ++ [cycle] }

/-- Whether as many cycles were found as are wanted. -/
def capped (maxCycles : Nat) (s : Search) : Bool := 0 < maxCycles && maxCycles ≤ s.found.length

/-- Leaves the innermost entity. -/
def leave (s : Search) (node : String) (outer : List Frame) : Search :=
  { s with
    frames := outer
    path := s.path.dropLast
    pathLinks := s.pathLinks.dropLast
    onStack := s.onStack.filter (·.1 != node)
    done := node :: s.done }

/-- Enters an entity by a link. -/
def enter (s : Search) (link : Link) : Search :=
  { s with
    frames := ⟨link.entityId, 0⟩ :: s.frames
    path := s.path ++ [link.entityId]
    pathLinks := s.pathLinks ++ [link.kind]
    onStack := (link.entityId, s.path.length) :: s.onStack }

/-- The cycle that a link to a place on the path closes. -/
def closeAt (s : Search) (place : Nat) (link : Link) : Found :=
  ⟨s.path.drop place, s.pathLinks.drop place ++ [link.kind]⟩

/-- How a step ends. -/
inductive Step where
  | finished
  | capped (s : Search)
  | running (s : Search)

/-- Follows one link of the innermost entity, or leaves it when there is no more link. -/
def step (g : DependencyGraph) (maxCycles : Nat) (s : Search) : Step :=
  match s.frames with
  | [] => .finished
  | top :: outer =>
    match (g.dependencies top.node)[top.next]? with
    | none => .running (s.leave top.node outer)
    | some link =>
      let s := { s with frames := { top with next := top.next + 1 } :: outer }
      if link.entityId = top.node then .running s
      else
        match s.onStack.lookup link.entityId with
        | some place =>
          let s := s.record (s.closeAt place link)
          if s.capped maxCycles then .capped s else .running s
        | none => if s.done.contains link.entityId then .running s else .running (s.enter link)

/-- Steps until the search ends. Gives whether it ended before the cap. -/
def loop (g : DependencyGraph) (maxCycles : Nat) : Nat → Search → Bool × Search
  | 0, s => (true, s)
  | fuel + 1, s =>
    match s.step g maxCycles with
    | .finished => (true, s)
    | .capped s => (false, s)
    | .running s => loop g maxCycles fuel s

/-- Every entity is entered and left once and every edge followed once. -/
def bound (g : DependencyGraph) : Nat := 2 * (g.nodeCount + 1) + g.edgeCount + 1

/-- Searches from an entity, unless an earlier search has left it. -/
def runFrom (g : DependencyGraph) (maxCycles : Nat) (s : Search) (start : String) : Bool × Search :=
  if s.done.contains start then (true, s)
  else
    loop g maxCycles (bound g)
      { s with frames := [⟨start, 0⟩], path := [start], pathLinks := [], onStack := [(start, 0)] }

def initial : Search := ⟨[], [], [], [], [], [], []⟩

/-- Searches from one entity after another, until the cap. -/
def runAll (g : DependencyGraph) (maxCycles : Nat) (s : Search) : List String → Bool × Search
  | [] => (true, s)
  | start :: rest =>
    match runFrom g maxCycles s start with
    | (true, s) => runAll g maxCycles s rest
    | (false, s) => (false, s)

end Search

end Cycles

/-- A cycle: `links[i]` joins `entities[i]` with the next entity, and the last link the last entity
with the first. -/
structure Cycle where
  entities : List Entity
  links : List RelationshipKind

namespace Cycle

def length (c : Cycle) : Nat := c.entities.length

def isEmpty (c : Cycle) : Bool := c.entities.isEmpty

/-- The cycle as `a -calls-> b -imports-> a`. -/
def describe (c : Cycle) : String :=
  String.join ((c.entities.zip c.links).map fun (e, link) => e.name ++ " -" ++ link.name ++ "-> ")
    ++ (match c.entities with
      | first :: _ => first.name
      | [] => "")

def toJson (c : Cycle) : Json :=
  .object [("entities", Json.list Entity.toJson c.entities),
    ("links", Json.list (fun link => .string link.name) c.links)]

end Cycle

structure CycleSummary where
  totalCycles : Nat
  uniqueEntities : Nat
  /-- The least and the greatest number of entities of a cycle, zero when there is no cycle. -/
  shortest : Nat
  longest : Nat
  /-- The cap stopped the search. -/
  truncated : Bool
  deriving DecidableEq, Repr

def CycleSummary.ofCycles (cycles : List Cycle) (truncated : Bool) : CycleSummary where
  totalCycles := cycles.length
  uniqueEntities := (cycles.flatMap fun c => c.entities.map (·.id)).eraseDups.length
  shortest := ((cycles.map Cycle.length).min?).getD 0
  longest := ((cycles.map Cycle.length).max?).getD 0
  truncated

structure CycleReport where
  cycles : List Cycle
  summary : CycleSummary

namespace CycleReport

def toJson (r : CycleReport) : Json :=
  .object [("cycles", Json.list Cycle.toJson r.cycles),
    ("summary", .object [("totalCycles", .nat r.summary.totalCycles),
      ("uniqueEntities", .nat r.summary.uniqueEntities), ("shortest", .nat r.summary.shortest),
      ("longest", .nat r.summary.longest), ("truncated", .bool r.summary.truncated)])]

end CycleReport

namespace Cycles

/-- The entities of a cycle; nothing when one of them is no longer stored. -/
def members (t : Tables) : List String → Except Error (Option (List Entity))
  | [] => .ok (some [])
  | id :: rest => do
    match ← Entities.find? id t with
    | none => return none
    | some entity => return (← members t rest).map (entity :: ·)

/-- The cycles all of whose entities are stored. -/
def materialize (t : Tables) : List Found → Except Error (List Cycle)
  | [] => .ok []
  | f :: rest => do
    let entities ← members t f.ids
    let cycles ← materialize t rest
    return (entities.map fun es => ⟨es, f.links⟩).toList ++ cycles

/-- The ids from which the search starts. -/
def starts (options : Options) (g : DependencyGraph) (t : Tables) : Except Error (List String) :=
  match options.entityName with
  | some name => return (← Entities.byName name t).map (·.id)
  | none => return g.nodes

def compute (options : Options) (t : Tables) : Except Error CycleReport := do
  let g ← DependencyGraph.load t
  let (ended, search) := Search.runAll g options.maxCycles .initial (← starts options g t)
  let cycles ← materialize t search.found
  return ⟨cycles, .ofCycles cycles !ended⟩

/-- The cycles of dependency edges among what is reachable from the starts. An edge from an entity
to itself is none. -/
def find (options : Options) : StoreM CycleReport :=
  StoreM.snapshot (StoreM.query (compute options))

end Cycles

end CodeAtlas
