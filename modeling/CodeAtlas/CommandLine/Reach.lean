import CodeAtlas.CommandLine.Run

/-!
# What a command looks at

The paths that a command line reads, as far as a disk shows them: the database is known once the
settings are there, and the files to look for are known once the database is there.
-/

namespace CodeAtlas.CommandLine

/-- The names of the files that say what a sweep leaves out, seen from their directory. -/
def ruleFiles : List String := [".gitignore", ".ignore", ".git", ".git/info/exclude"]

/-- A path with those above it, from the root on. -/
def lineage (p : Path) : List Path :=
  (List.range (p.components.length + 1)).map fun n => ⟨p.components.take n⟩

/-- What decides whether a sweep of a root meets a file. -/
def sweepPaths (root : Path) (files : List Path) : List String :=
  let directories := ((root :: files).flatMap lineage).eraseDups
  (directories.flatMap fun d => ruleFiles.map fun name => Path.join d.text name)
    ++ (root :: files).map Path.text

/-- The files of a ledger below a root. -/
def ledgerBelow (root : Path) (db : Database) : List Path :=
  match FileLedger.all db.tables with
  | .ok records =>
    ((records.map (·.filePath)).filter root.isBelow).map fun path => (Path.mk []).resolve path
  | .error _ => []

/-- The paths that an invocation looks at. -/
def Invocation.reach (i : Invocation) (disk : Disk) : List String :=
  let config := match Config.load disk i.configPath with
    | .ok (some c) => c
    | _ => {}
  let database := i.databasePath config disk.base
  let swept := match i.command, Database.connect disk database with
    | .prune path, .ok db =>
      let root := disk.base.resolve path
      sweepPaths root (ledgerBelow root db)
    | _, _ => []
  [i.configPath, Path.directoryOf database, database] ++ swept

/-- The paths that a command line looks at. -/
def reach (words : List String) (disk : Disk) : List String :=
  match Request.ofWords words with
  | .ok (.run invocation) => invocation.reach disk
  | _ => []

/-- The rounds after which the reach of a command line grows no more: the settings, the database,
and the files. -/
def rounds : Nat := 3

end CodeAtlas.CommandLine
