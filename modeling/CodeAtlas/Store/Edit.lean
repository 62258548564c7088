import CodeAtlas.Store.Tables
import CodeAtlas.Json.Record
import CodeAtlas.Json.Printer

/-!
# Edits from outside

What another program with access to a database can do to its rows behind the library's back: change
one column, take away a row without its relationships, and make a table turn rows away.
-/

namespace CodeAtlas

namespace Cell

/-- What a number column keeps of a text: a text that is an integer becomes that integer. -/
def ofText (s : String) : Cell :=
  let cs := s.toList
  let (negative, digits) := match cs with
    | '-' :: rest => (true, rest)
    | '+' :: rest => (false, rest)
    | _ => (false, cs)
  if !digits.isEmpty && digits.all Char.isDigit then
    let n : Nat := digits.foldl (fun n c => n * 10 + (c.toNat - '0'.toNat)) 0
    .integer (if negative then -n else n)
  else .text s

/-- The content of a number column after it was given a value. -/
def ofJson? : Json → Option Cell
  | .number (.integer n) => some (.integer n)
  | .string s => some (ofText s)
  | _ => none

end Cell

namespace Tables

/-- What a text column keeps of a value: a number becomes its decimal text. -/
def columnText? : Json → Option String
  | .string s => some s
  | .number n => some (String.ofList n.text)
  | _ => none

/-- A text column that may be empty. -/
def columnOption? : Json → Option (Option String)
  | .null => some none
  | v => (columnText? v).map some

/-- An entity row with one column changed. -/
def editEntity (column : String) (value : Json) (r : EntityRow) : Option EntityRow :=
  match column with
  | "id" => (columnText? value).map fun id => { r with id }
  | "type" => (columnText? value).map fun kind => { r with kind }
  | "name" => (columnText? value).map fun name => { r with name }
  | "file_path" => (columnText? value).map fun filePath => { r with filePath }
  | "start_line" => (Cell.ofJson? value).map fun startLine => { r with startLine }
  | "end_line" => (Cell.ofJson? value).map fun endLine => { r with endLine }
  | "language" => (columnText? value).map fun language => { r with language }
  | "metadata" => (columnOption? value).map fun metadata => { r with metadata }
  | _ => none

/-- A relationship row with one column changed. -/
def editRelationship (column : String) (value : Json) (r : RelationshipRow) :
    Option RelationshipRow :=
  match column with
  | "id" => (columnText? value).map fun id => { r with id }
  | "source_id" => (columnText? value).map fun sourceId => { r with sourceId }
  | "target_id" => (columnText? value).map fun targetId => { r with targetId }
  | "type" => (columnText? value).map fun kind => { r with kind }
  | "metadata" => (columnOption? value).map fun metadata => { r with metadata }
  | _ => none

/-- Changes a column of the entity of an id. Gives how many rows that were. -/
def overwriteEntity (id column : String) (value : Json) (t : Tables) :
    Except StorageFault (Nat × Tables) := do
  let table ← t.entityTable
  let rows := table.rows.map fun r =>
    if r.id = id then (editEntity column value r).getD r else r
  .ok ((table.rows.filter (·.id == id)).length, { t with entities := some { table with rows } })

/-- Whether two of the edges join the same ends in the same way. -/
def repeatsEdge : List RelationshipRow → Bool
  | [] => false
  | r :: rest => rest.any (·.sameEdge r) || repeatsEdge rest

/-- Changes a column of the relationship of an id. Gives how many rows that were. -/
def overwriteRelationship (id column : String) (value : Json) (t : Tables) :
    Except StorageFault (Nat × Tables) := do
  let table ← t.relationshipTable
  let rows := table.rows.map fun r =>
    if r.id = id then (editRelationship column value r).getD r else r
  if repeatsEdge rows then .error (.broken .uniqueEdge)
  else
    .ok ((table.rows.filter (·.id == id)).length,
      { t with relationships := some { table with rows } })

/-- Takes an entity away and leaves its relationships without an end. -/
def orphan (id : String) (t : Tables) : Except StorageFault (Nat × Tables) := do
  let table ← t.entityTable
  .ok ((table.rows.filter (·.id == id)).length,
    { t with entities := some { table with rows := table.rows.filter (·.id != id) } })

/-- Makes the table of entities turn away a name. -/
def rejectEntity (name : String) (t : Tables) : Except StorageFault Tables := do
  let table ← t.entityTable
  .ok { t with entities := some { table with rejects := name :: table.rejects } }

/-- Makes the table of relationships turn away a type. -/
def rejectRelationship (kind : String) (t : Tables) : Except StorageFault Tables := do
  let table ← t.relationshipTable
  .ok { t with relationships := some { table with rejects := kind :: table.rejects } }

/-- Makes the ledger of files turn away a language. -/
def rejectFile (language : String) (t : Tables) : Except StorageFault Tables := do
  let table ← t.fileTable
  .ok { t with files := some { table with rejects := language :: table.rejects } }

end Tables

end CodeAtlas
