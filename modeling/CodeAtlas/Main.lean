import CodeAtlas.CommandLine.Reach

/-!
# The program

Reads what a command looks at, runs the command, and writes the files that it changed.
-/

namespace CodeAtlas.Program

/-- What stands at a path. -/
def probe (path : String) : IO (Option Node) := do
  try
    return some (.file (← IO.FS.readBinFile path))
  catch
    | .inappropriateType _ _ _ => return some (.directory [])
    | _ => return none

/-- Puts what stands at a path, and at those on the way to it, on the disk. -/
def observe (disk : Disk) (path : String) : IO Disk := do
  let mut disk := disk
  for p in CommandLine.lineage (disk.base.resolve path) do
    if (disk.find? p).isNone then
      if let some node ← probe p.text then
        disk := (disk.put? p node).getD disk
  return disk

/-- Writes the file of a path if the command changed it. -/
def keep (before after : Disk) (path : String) : IO Unit := do
  match before.read path, after.read path with
  | .ok old, .ok new =>
    if old != new then IO.FS.writeBinFile path new
  | .error _, .ok new =>
    let directory := Path.directoryOf path
    if directory != "" then IO.FS.createDirAll directory
    IO.FS.writeBinFile path new
  | _, _ => return

/-- Runs a command line. Gives its exit code. -/
def run (words : List String) : IO UInt32 := do
  let base := (Path.mk []).resolve (toString (← IO.currentDir))
  let empty : Disk := ⟨.directory [], base⟩
  let mut disk ← observe empty base.text
  for _ in [0:CommandLine.rounds] do
    for path in CommandLine.reach words disk do
      disk ← observe disk path
  let (result, after) := CommandLine.run words disk
  for path in CommandLine.reach words after do
    keep disk after path
  match result with
  | .ok output =>
    IO.print output.print
    return 0
  | .error failure =>
    IO.eprintln failure.message
    return failure.exitCode.toUInt32

end CodeAtlas.Program

def main (words : List String) : IO UInt32 := CodeAtlas.Program.run words
