import CodeAtlas.Store.Database

/-!
# The ledger of files

One record per indexed file: the hash of the content that its entities were found in, and its
language. A record keeps its number as long as its path stays in the ledger.
-/

namespace CodeAtlas.FileLedger

def rows (t : Tables) : Except Error (List FileRecord) :=
  match t.fileTable with
  | .ok table => .ok table.rows
  | .error fault => .error (.storage fault)

def find? (filePath : String) (t : Tables) : Except Error (Option FileRecord) := do
  return (← rows t).find? (·.filePath == filePath)

/-- All records by path. -/
def all (t : Tables) : Except Error (List FileRecord) := do
  return (← rows t).mergeSort fun a b => a.filePath ≤ b.filePath

def count (t : Tables) : Except Error Nat := do
  return (← rows t).length

/-- Adds the record of a file or refreshes it. -/
def upsert (filePath contentHash language : String) : StoreM FileRecord := do
  StoreM.execute fun t =>
    match t.upsertFile filePath contentHash language with
    | .ok t => .ok ((), t)
    | .error fault => .error (.storage fault)
  match ← StoreM.query (find? filePath) with
  | some record => return record
  | none => StoreM.lift (.error (.storage .noRows))

/-- Removes the record of a file. Gives whether there was one. -/
def delete (filePath : String) : StoreM Bool :=
  StoreM.execute fun t =>
    match t.deleteFile filePath with
    | .ok r => .ok r
    | .error fault => .error (.storage fault)

end CodeAtlas.FileLedger
