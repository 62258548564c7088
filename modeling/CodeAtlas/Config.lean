import CodeAtlas.Disk
import CodeAtlas.Index.Indexer
import CodeAtlas.Json.Record
import CodeAtlas.Query.Cycles
import CodeAtlas.Query.DeadCode
import CodeAtlas.Toml.Reader

/-!
# Configuration

The settings of a project: where its database is, how its files are indexed, and how far analyses
go. They are kept in a TOML file in which everything may be left out.
-/

namespace CodeAtlas

structure AnalysisConfig where
  /-- Stop after this many cycles; zero is no limit. -/
  maxCycles : Nat := 100
  blastRadiusDepth : Nat := 3
  entryPoints : List String := DeadCode.defaultEntryPoints
  lifecycleMethods : List String := DeadCode.defaultLifecycleMethods
  testPatterns : List String := DeadCode.defaultTestPatterns
  deriving DecidableEq, Repr

structure Config where
  /-- The path of the database. -/
  database : Option String := none
  indexer : IndexerOptions := {}
  analysis : AnalysisConfig := {}
  deriving DecidableEq, Repr

namespace Config

/-- The largest number of cycles, and the largest depth. -/
def maxCount : Nat := Nat.pow 2 64 - 1
def maxDepth : Nat := Nat.pow 2 32 - 1

/-! ### As a record -/

def indexerOfJson? (surplus : Json.Surplus) (v : Json) : Option IndexerOptions := do
  match ← v.record? surplus ["use_hash_check", "exclude"] with
  | [useHashCheck, exclude] =>
    return {
      useHashCheck := ← Json.withDefault true Json.toBool? useHashCheck
      exclude := ← Json.withDefault [] (Json.toList? Json.toString?) exclude }
  | _ => none

def analysisOfJson? (surplus : Json.Surplus) (v : Json) : Option AnalysisConfig := do
  let names (default : List String) : Option Json → Option (List String) :=
    Json.withDefault default (Json.toList? Json.toString?)
  match ← v.record? surplus ["max_cycles", "blast_radius_depth", "entry_points",
      "lifecycle_methods", "test_patterns"] with
  | [cycles, depth, entryPoints, lifecycle, tests] =>
    return {
      maxCycles := ← Json.withDefault 100 (Json.toNat? maxCount) cycles
      blastRadiusDepth := ← Json.withDefault 3 (Json.toNat? maxDepth) depth
      entryPoints := ← names DeadCode.defaultEntryPoints entryPoints
      lifecycleMethods := ← names DeadCode.defaultLifecycleMethods lifecycle
      testPatterns := ← names DeadCode.defaultTestPatterns tests }
  | _ => none

/-- Reads the settings. Given by position, the path of the database may not be left out. -/
def ofJson? (surplus : Json.Surplus) (v : Json) : Option Config := do
  if let .array [] := v then none
  match ← v.record? surplus ["database", "indexer", "analysis"] with
  | [database, indexer, analysis] =>
    return {
      database := ← Json.allow Json.toString? database
      indexer := ← Json.withDefault {} (indexerOfJson? surplus) indexer
      analysis := ← Json.withDefault {} (analysisOfJson? surplus) analysis }
  | _ => none

def toJson (c : Config) : Json :=
  .object [
    ("database", Json.option .string c.database),
    ("indexer", .object [
      ("use_hash_check", .bool c.indexer.useHashCheck),
      ("exclude", Json.list .string c.indexer.exclude)]),
    ("analysis", .object [
      ("max_cycles", .nat c.analysis.maxCycles),
      ("blast_radius_depth", .nat c.analysis.blastRadiusDepth),
      ("entry_points", Json.list .string c.analysis.entryPoints),
      ("lifecycle_methods", Json.list .string c.analysis.lifecycleMethods),
      ("test_patterns", Json.list .string c.analysis.testPatterns)])]

/-! ### What analyses take from it -/

def cycleOptions (c : Config) (entityName : Option String) : Cycles.Options where
  entityName := entityName
  maxCycles := c.analysis.maxCycles

def deadCodeOptions (c : Config) (includeTests : Bool) (limit : Option Nat) : DeadCode.Options where
  includeTests := includeTests
  limit := limit
  entryPoints := c.analysis.entryPoints
  lifecycleMethods := c.analysis.lifecycleMethods
  testPatterns := c.analysis.testPatterns

/-! ### As text -/

def ofToml? (text : String) : Option Config :=
  (Toml.parse? text).bind fun entries =>
    ofJson? .ignored (Toml.Value.table .header entries).toJson

/-- A list of strings, one to a line from two on. -/
def tomlList (items : List String) : List Char :=
  match items with
  | [] => ['[', ']']
  | [s] => '[' :: (Toml.Text.write s ++ [']'])
  | items =>
    let line (s : String) : List Char := "    ".toList ++ Toml.Text.write s ++ [',', '\n']
    '[' :: '\n' :: (items.flatMap line ++ [']'])

def tomlLine (key : String) (value : List Char) : List Char :=
  key.toList ++ " = ".toList ++ value ++ ['\n']

def tomlLines (c : Config) : List Char :=
  (match c.database with
    | some path => tomlLine "database" (Toml.Text.write path) ++ ['\n']
    | none => [])
  ++ "[indexer]\n".toList
  ++ tomlLine "use_hash_check" (if c.indexer.useHashCheck then "true" else "false").toList
  ++ tomlLine "exclude" (tomlList c.indexer.exclude)
  ++ "\n[analysis]\n".toList
  ++ tomlLine "max_cycles" (toString c.analysis.maxCycles).toList
  ++ tomlLine "blast_radius_depth" (toString c.analysis.blastRadiusDepth).toList
  ++ tomlLine "entry_points" (tomlList c.analysis.entryPoints)
  ++ tomlLine "lifecycle_methods" (tomlList c.analysis.lifecycleMethods)
  ++ tomlLine "test_patterns" (tomlList c.analysis.testPatterns)

/-- The text of the settings. A number that TOML has no room for cannot be written. -/
def toToml? (c : Config) : Option String :=
  if c.analysis.maxCycles ≤ Toml.Scalar.maxInteger then some (String.ofList c.tomlLines) else none

/-! ### Files -/

def defaultPath : String := "codegraph.toml"

/-- The database of a directory. -/
def defaultDatabase (base : String) : String :=
  Path.join (Path.join base ".codegraph") "graph.db"

/-- Why settings cannot be read or written. -/
inductive Fault where
  | unreadable (fault : FileFault)
  | malformed (path : String)
  | alreadyThere (path : String)
  | numberTooLarge
  | unwritable (path : String)
  deriving DecidableEq, Repr

def Fault.message : Fault → String
  | .unreadable fault => fault.message
  | .malformed path => "no valid settings in " ++ path
  | .alreadyThere path => "config already exists at " ++ path ++ " (use --force to overwrite)"
  | .numberTooLarge => "max_cycles is too large"
  | .unwritable path => "cannot write " ++ path

/-- The settings in a file, or none if there is no file. -/
def load (disk : Disk) (path : String) : Except Fault (Option Config) :=
  if disk.isPresent path then
    match disk.readText path with
    | .error fault => .error (.unreadable fault)
    | .ok text =>
      match ofToml? text with
      | some c => .ok (some c)
      | none => .error (.malformed path)
  else .ok none

/-- Writes settings to a file. A file that is there is replaced by force only. -/
def save (disk : Disk) (path : String) (c : Config) (force : Bool) : Except Fault Disk :=
  if disk.isPresent path && !force then .error (.alreadyThere path)
  else
    match c.toToml? with
    | none => .error .numberTooLarge
    | some text =>
      match disk.write? path text.toUTF8 with
      | some disk => .ok disk
      | none => .error (.unwritable path)

end Config

end CodeAtlas
