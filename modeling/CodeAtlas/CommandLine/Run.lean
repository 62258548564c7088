import CodeAtlas.CommandLine.Command
import CodeAtlas.Query.BlastRadius
import CodeAtlas.Query.Calls
import CodeAtlas.Query.Stats
import CodeAtlas.Store.Image

/-!
# Running commands

What a command does to a disk and what it prints. The settings are read first, then the directory of
the database is made, and then the command runs on the database.
-/

namespace CodeAtlas.CommandLine

inductive Failure where
  | usage (cause : UsageError)
  | config (cause : Config.Fault)
  /-- A directory that cannot be made. -/
  | directory (path : String)
  | store (cause : Error)
  deriving DecidableEq, Repr

namespace Failure

def message : Failure → String
  | .usage cause => cause.message
  | .config cause => cause.message
  | .directory path => "cannot create directory " ++ path
  | .store cause => cause.message

/-- The exit code: wrong usage is told apart from a failed command. -/
def exitCode : Failure → Nat
  | .usage _ => 2
  | _ => 1

end Failure

inductive Output where
  | json (v : Json)
  | text (s : String)

def Output.print : Output → String
  | .json v => v.indented ++ "\n"
  | .text s => s

/-- A computation on a disk. What it wrote before it failed stays. -/
abbrev CommandM := ExceptT Failure (StateM Disk)

namespace CommandM

def lift (f : ε → Failure) (x : Except ε α) : CommandM α :=
  ExceptT.mk fun disk => (x.mapError f, disk)

def disk : CommandM Disk := ExceptT.mk fun disk => (.ok disk, disk)

def update (f : Disk → Except Failure Disk) : CommandM Unit := ExceptT.mk fun disk =>
  match f disk with
  | .ok changed => (.ok (), changed)
  | .error e => (.error e, disk)

/-- Runs on the database of a path as it is. -/
def onDatabase (path : String) (x : StoreM α) : CommandM α := ExceptT.mk fun disk =>
  match Database.connect disk path with
  | .error e => (.error (.store e), disk)
  | .ok db =>
    let (result, db) := x.runOn db
    (result.mapError .store, db.save path disk)

/-- Runs on the database of a path after the pending migrations. -/
def onMigrated (path : String) (x : StoreM α) : CommandM α :=
  onDatabase path do
    discard Migrations.builtIn.run
    x

end CommandM

/-- Makes the directory of the database where there is none. -/
def prepareDirectory (database : String) : CommandM Unit := CommandM.update fun disk =>
  let directory := Path.directoryOf database
  if directory = "" || disk.isPresent directory then .ok disk
  else
    match disk.makeDirectories? directory with
    | some disk => .ok disk
    | none => .error (.directory directory)

def migrationJson (version : Int) (name : String) : Json :=
  .object [("version", .int version), ("name", .string name)]

/-- Runs a command with its settings on its database. -/
def Command.run (configPath database : String) (config : Config) : Command → CommandM Json
  | .init force => do
    CommandM.update fun disk =>
      (Config.save disk configPath { config with database := some database } force).mapError .config
    let applied ← CommandM.onMigrated database Migrations.applied
    return .object [("config", .string configPath), ("database", .string database),
      ("migrations", .nat applied.length)]
  | .migrate => do
    let applied ← CommandM.onDatabase database Migrations.builtIn.run
    return .object [("applied", .nat applied)]
  | .rollback => do
    let rolledBack ← CommandM.onDatabase database Migrations.builtIn.rollback
    return .object [("rolledBack", .bool rolledBack)]
  | .migrations => do
    let (pending, applied) ← CommandM.onDatabase database do
      return (← Migrations.builtIn.pending, ← Migrations.applied)
    return .object [
      ("applied", Json.list (fun m : AppliedMigration => migrationJson m.version m.name) applied),
      ("pending", Json.list (fun m : Migration => migrationJson m.version m.name) pending)]
  | .stats => do
    return (← CommandM.onMigrated database Stats.run).toJson
  | .callers name => do
    return Json.list Entity.toJson (← CommandM.onMigrated database (Calls.callers name))
  | .callees name => do
    return Json.list Entity.toJson (← CommandM.onMigrated database (Calls.callees name))
  | .blastRadius file depth => do
    let source := (← CommandM.disk).base.normalize file
    let depth := depth.getD config.analysis.blastRadiusDepth
    return (← CommandM.onMigrated database (BlastRadius.run source depth)).toJson
  | .cycles entity maxCycles => do
    let options := config.cycleOptions entity
    let options := { options with maxCycles := maxCycles.getD options.maxCycles }
    return (← CommandM.onMigrated database (Cycles.find options)).toJson
  | .deadCode includeTests limit => do
    let options := config.deadCodeOptions includeTests limit
    return (← CommandM.onMigrated database (DeadCode.find options)).toJson
  | .prune path => do
    let disk ← CommandM.disk
    let removed ← CommandM.onMigrated database (Indexer.prune disk config.indexer path)
    return Json.list DeletionRecord.toJson removed

/-- The path of the settings of an invocation. -/
def Invocation.configPath (i : Invocation) : String := i.config.getD Config.defaultPath

/-- The path of the database: the one given, else that of the settings, else the usual one. -/
def Invocation.databasePath (i : Invocation) (config : Config) (base : Path) : String :=
  (i.database.or config.database).getD (Config.defaultDatabase base.text)

def Invocation.run (i : Invocation) : CommandM Json := do
  let disk ← CommandM.disk
  let config := (← CommandM.lift .config (Config.load disk i.configPath)).getD {}
  let database := i.databasePath config disk.base
  prepareDirectory database
  i.command.run i.configPath database config

def versionText : String := "codegraph 0.0.1\n"

def helpText : String :=
  "Usage: codegraph [OPTIONS] <COMMAND>\n\nCommands:\n"
    ++ String.join (commandOptions.map fun (name, _) => "  " ++ name ++ "\n")

/-- Runs a command line on a disk. -/
def run (words : List String) (disk : Disk) : Except Failure Output × Disk :=
  match Request.ofWords words with
  | .error e => (.error (.usage e), disk)
  | .ok .help => (.ok (.text helpText), disk)
  | .ok .version => (.ok (.text versionText), disk)
  | .ok (.run invocation) =>
    let (result, disk) := (invocation.run).run.run disk
    (result.map .json, disk)

end CodeAtlas.CommandLine
