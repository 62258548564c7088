import CodeAtlas.Path
import CodeAtlas.Pattern.PathMatch
import CodeAtlas.Store.Entities
import CodeAtlas.Store.Relationships

/-!
# Dead code

Functions, classes and methods that nothing calls, extends or implements. Entry points, names that
runtimes and frameworks call, and tests are left out; what is exported may be used from outside and
is a finding of less confidence.
-/

namespace CodeAtlas

/-- How sure it is that a finding is unused. -/
inductive Confidence where
  /-- Not exported and never referenced. -/
  | high
  /-- Exported, so possibly used from outside. -/
  | medium
  deriving DecidableEq, Repr

namespace Confidence

def name : Confidence → String
  | .high => "high"
  | .medium => "medium"

def all : List Confidence := [.high, .medium]

/-- The more sure ones first. -/
def le : Confidence → Confidence → Bool
  | .medium, .high => false
  | _, _ => true

def reason : Confidence → String
  | .high => "never called, extended or implemented"
  | .medium => "exported but never referenced internally"

end Confidence

namespace DeadCode

/-- Files of these stems are entry points. -/
def defaultEntryPoints : List String :=
  ["main", "index", "app", "server", "cli", "lib", "mod", "__main__", "__init__"]

/-- Names that are called by runtimes and frameworks. -/
def defaultLifecycleMethods : List String :=
  ["constructor", "__init__", "__new__", "__call__", "new", "main", "render",
    "componentDidMount", "componentDidUpdate", "componentWillUnmount", "ngOnInit", "ngOnDestroy",
    "setUp", "tearDown", "beforeEach", "afterEach", "drop", "default", "fmt", "toString",
    "equals", "hashCode"]

def defaultTestPatterns : List String :=
  ["**/*.test.*", "**/*.spec.*", "**/*_test.*", "**/test_*.py", "**/tests/**", "**/test/**",
    "**/__tests__/**"]

structure Options where
  includeTests : Bool := false
  /-- How many findings to report at most. -/
  limit : Option Nat := none
  entryPoints : List String := defaultEntryPoints
  lifecycleMethods : List String := defaultLifecycleMethods
  testPatterns : List String := defaultTestPatterns
  deriving DecidableEq, Repr

def Options.toJson (o : Options) : Json :=
  .object [("includeTests", .bool o.includeTests), ("limit", Json.option .nat o.limit),
    ("entryPoints", Json.list .string o.entryPoints),
    ("lifecycleMethods", Json.list .string o.lifecycleMethods),
    ("testPatterns", Json.list .string o.testPatterns)]

/-- What a search leaves out. -/
structure Exclusions where
  options : Options
  /-- The valid ones of the test patterns. -/
  testPatterns : List (List PathMatch.Token)

namespace Exclusions

def ofOptions (o : Options) : Exclusions := ⟨o, o.testPatterns.filterMap PathMatch.ofString?⟩

def isEntryPoint (x : Exclusions) (e : Entity) : Bool :=
  match Path.stem? e.filePath with
  | some stem => x.options.entryPoints.contains stem
  | none => false

def isLifecycle (x : Exclusions) (e : Entity) : Bool := x.options.lifecycleMethods.contains e.name

def isTest (x : Exclusions) (e : Entity) : Bool :=
  x.testPatterns.any fun pattern => PathMatch.matches pattern e.filePath

def excludes (x : Exclusions) (e : Entity) : Bool :=
  x.isEntryPoint e || x.isLifecycle e || (!x.options.includeTests && x.isTest e)

end Exclusions

structure Finding where
  entity : Entity
  confidence : Confidence

namespace Finding

def ofEntity (e : Entity) : Finding := ⟨e, if e.isExported then .medium else .high⟩

/-- By confidence, file path and start line. -/
def le (a b : Finding) : Bool :=
  if a.confidence = b.confidence then
    a.entity.filePath < b.entity.filePath
      || (a.entity.filePath == b.entity.filePath && a.entity.startLine ≤ b.entity.startLine)
  else a.confidence.le b.confidence

def toJson (f : Finding) : Json :=
  .object [("entity", f.entity.toJson), ("confidence", .string f.confidence.name),
    ("reason", .string f.confidence.reason)]

end Finding

structure Report where
  findings : List Finding
  /-- The number of findings before the limit. -/
  total : Nat

namespace Report

def truncated (r : Report) : Bool := r.findings.length < r.total

def countConfidence (r : Report) (c : Confidence) : Nat :=
  (r.findings.filter (·.confidence == c)).length

def countKind (r : Report) (kind : EntityKind) : Nat :=
  (r.findings.filter (·.entity.kind == kind)).length

/-- Counts that are not zero, under the names of what they count. -/
def positive (counts : List (String × Nat)) : Json :=
  .object ((counts.filter (0 < ·.2)).map fun (name, n) => (name, .nat n))

def toJson (r : Report) : Json :=
  .object [("findings", Json.list Finding.toJson r.findings),
    ("summary", .object [("total", .nat r.total), ("reported", .nat r.findings.length),
      ("truncated", .bool r.truncated),
      ("byConfidence", positive (Confidence.all.map fun c => (c.name, r.countConfidence c))),
      ("byType", positive (EntityKind.all.map fun k => (k.name, r.countKind k)))])]

end Report

/-- The ids that something calls, extends or implements. -/
def referenced (t : Tables) : Except Error (List String) := do
  return (← Relationships.byKinds RelationshipKind.usages t).map (·.targetId)

def isCandidate (used : List String) (x : Exclusions) (e : Entity) : Bool :=
  e.kind.isCodeUnit && !used.contains e.id && !x.excludes e

def compute (options : Options) (t : Tables) : Except Error Report := do
  let used ← referenced t
  let dead := (← Entities.all t).filter (isCandidate used (.ofOptions options))
  let findings := (dead.map Finding.ofEntity).mergeSort Finding.le
  return {
    findings := match options.limit with
      | some limit => findings.take limit
      | none => findings
    total := findings.length }

def find (options : Options) : StoreM Report :=
  StoreM.snapshot (StoreM.query (compute options))

end DeadCode

end CodeAtlas
