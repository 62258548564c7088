import CodeAtlas.Digest.Blake3
import CodeAtlas.Index.Discovery
import CodeAtlas.Index.Resolver
import CodeAtlas.Store.FileLedger

/-!
# Incremental indexing

Keeps the graph in step with files. The ledger tells whether a file has changed since it was
indexed: a new file is created, a changed one replaced, an unchanged one skipped, and a file that
cannot be read, has no known language or cannot be extracted is an error that leaves the graph as it
was. A sweep indexes a directory and then removes what is no longer there.
-/

namespace CodeAtlas

/-- What the indexer did with a file. -/
inductive IndexAction where
  | created | updated | skipped | error
  deriving DecidableEq, Repr

def IndexAction.name : IndexAction → String
  | .created => "created"
  | .updated => "updated"
  | .skipped => "skipped"
  | .error => "error"

def IndexAction.all : List IndexAction := [.created, .updated, .skipped, .error]

/-- The result of indexing one file. -/
structure IndexOutcome where
  filePath : String
  action : IndexAction
  language : Option String := none
  /-- The entities of the file after the call; none when the file is an error. -/
  entities : List Entity := []
  relationshipsCreated : Nat := 0
  relationshipsDropped : Nat := 0
  error : Option String := none

namespace IndexOutcome

def failed (filePath : String) (language : Option String) (reason : String) : IndexOutcome :=
  { filePath, action := .error, language, error := some reason }

def toJson (o : IndexOutcome) : Json :=
  .object [("filePath", .string o.filePath), ("action", .string o.action.name),
    ("language", Json.option .string o.language),
    ("entities", Json.list Entity.toJson o.entities),
    ("relationshipsCreated", .nat o.relationshipsCreated),
    ("relationshipsDropped", .nat o.relationshipsDropped),
    ("error", Json.option .string o.error)]

end IndexOutcome

/-- A file that was removed from the graph. -/
structure DeletionRecord where
  filePath : String
  entitiesRemoved : Nat
  deriving DecidableEq, Repr

def DeletionRecord.toJson (d : DeletionRecord) : Json :=
  .object [("filePath", .string d.filePath), ("entitiesRemoved", .nat d.entitiesRemoved)]

/-- What a sweep did. -/
structure SyncReport where
  outcomes : List IndexOutcome
  deleted : List DeletionRecord

namespace SyncReport

/-- How many files ended with an action. -/
def count (r : SyncReport) (action : IndexAction) : Nat :=
  (r.outcomes.filter (·.action == action)).length

def toJson (r : SyncReport) : Json :=
  .object [("created", .nat (r.count .created)), ("updated", .nat (r.count .updated)),
    ("skipped", .nat (r.count .skipped)), ("errors", .nat (r.count .error)),
    ("deleted", Json.list DeletionRecord.toJson r.deleted),
    ("outcomes", Json.list IndexOutcome.toJson r.outcomes)]

def display (r : SyncReport) : String :=
  "Index Sweep:\n"
    ++ "  Created: " ++ toString (r.count .created) ++ "\n"
    ++ "  Updated: " ++ toString (r.count .updated) ++ "\n"
    ++ "  Skipped: " ++ toString (r.count .skipped) ++ "\n"
    ++ "  Errors: " ++ toString (r.count .error) ++ "\n"
    ++ "  Deleted: " ++ toString r.deleted.length ++ "\n"

end SyncReport

structure IndexerOptions where
  /-- Skip files whose hash is the one in the ledger. -/
  useHashCheck : Bool := true
  /-- Further rules of the sweep's filter, in the notation of ignore files. -/
  exclude : List String := []
  deriving DecidableEq, Repr

namespace Indexer

/-- Replaces what the graph holds of a file by an extraction. -/
def replace (filePath hash language : String) (known : Bool) (x : Extraction) :
    StoreM ResolutionReport :=
  StoreM.mapError (Error.inTransaction ("index " ++ filePath))
    (StoreM.transaction do
      if known then discard (Entities.deleteByFile filePath)
      let report ← Resolver.resolve x.entities x.relationships
      discard (FileLedger.upsert filePath hash language)
      return report)

/-- Indexes a file of a normalized path and a known language. -/
def indexKnown (base : Path) (options : IndexerOptions) (extractor : Extractor)
    (filePath content language : String) : StoreM IndexOutcome := do
  let hash := Blake3.hash content.toUTF8
  let previous ← StoreM.query (FileLedger.find? filePath)
  if options.useHashCheck && previous.any (·.contentHash == hash) then
    let entities ← StoreM.query (Entities.byFile filePath)
    return { filePath, action := .skipped, language := some language, entities }
  else
    match extractor filePath content language with
    | .error e => return .failed filePath (some language) e.message
    | .ok found =>
      let x := found.anchor base filePath
      match x.entities.forM NewEntity.validate with
      | .error e => return .failed filePath (some language) e.message
      | .ok () =>
        let report ← replace filePath hash language previous.isSome x
        return {
          filePath
          action := if previous.isSome then .updated else .created
          language := some language
          entities := report.entities
          relationshipsCreated := report.relationships.length
          relationshipsDropped := report.dropped }

/-- Indexes a file given its content. -/
def indexContent (base : Path) (options : IndexerOptions) (extractor : Extractor)
    (path content : String) : StoreM IndexOutcome :=
  let filePath := base.normalize path
  match Language.detect filePath with
  | none => return .failed filePath none "unsupported language"
  | some language => indexKnown base options extractor filePath content language

/-- Reads a file from a disk and indexes it. -/
def indexFile (disk : Disk) (options : IndexerOptions) (extractor : Extractor) (path : String) :
    StoreM IndexOutcome :=
  let filePath := disk.base.normalize path
  match disk.readText path with
  | .ok content => indexContent disk.base options extractor filePath content
  | .error fault => return .failed filePath none ("unreadable file: " ++ fault.message)

/-- Removes a file from the graph and from the ledger. -/
def removeFile (filePath : String) : StoreM DeletionRecord := do
  let entitiesRemoved ← Entities.deleteByFile filePath
  discard (FileLedger.delete filePath)
  return { filePath, entitiesRemoved }

/-- Removes files, all of them or none. -/
def removeFiles (paths : List String) : StoreM (List DeletionRecord) :=
  if paths.isEmpty then return []
  else
    StoreM.mapError
      (Error.inTransaction ("remove " ++ toString paths.length ++ " stale files"))
      (StoreM.transaction (paths.mapM removeFile))

/-- The paths in the ledger that a test selects, in ascending order. -/
def ledgered (test : String → Bool) : StoreM (List String) := do
  return ((← StoreM.query FileLedger.all).map (·.filePath)).filter test

/-- Removes every file of the ledger that is not among the current ones. -/
def removeStale (base : Path) (current : List String) : StoreM (List DeletionRecord) := do
  let present := current.map base.normalize
  removeFiles (← ledgered fun path => !present.contains path)

/-- The files of the ledger below a root that are not among the given ones. -/
def staleBelow (root : Path) (present : List String) : StoreM (List String) :=
  ledgered fun path => root.isBelow path && !present.contains path

/-- Removes the files below a root that a sweep would not index, and indexes none. -/
def prune (disk : Disk) (options : IndexerOptions) (root : String) :
    StoreM (List DeletionRecord) := do
  let root := disk.base.resolve root
  let present := (discover disk root options.exclude).map Path.text
  removeFiles (← staleBelow root present)

/-- Indexes the files below a root, and then removes those that are no longer there. -/
def sync (disk : Disk) (options : IndexerOptions) (extractor : Extractor) (root : String) :
    StoreM SyncReport := do
  let root := disk.base.resolve root
  let outcomes ← (discover disk root options.exclude).mapM fun path =>
    indexFile disk options extractor path.text
  let deleted ← removeFiles (← staleBelow root (outcomes.map (·.filePath)))
  return { outcomes, deleted }

end Indexer

end CodeAtlas
