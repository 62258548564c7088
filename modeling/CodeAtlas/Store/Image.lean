import CodeAtlas.Disk
import CodeAtlas.Json.Printer
import CodeAtlas.Json.Reader
import CodeAtlas.Json.Record
import CodeAtlas.Store.Migrations

/-!
# Database files

The bytes in which the content of a database is kept on a disk: a mark that no text starts with, and
the tables as JSON, rows by position. An empty file is an empty database.
-/

namespace CodeAtlas

/-! ### Columns and rows -/

def Cell.toJson : Cell → Json
  | .integer n => .int n
  | .text s => .string s

def Cell.read? : Json → Option Cell
  | .string s => some (.text s)
  | v => v.toInt?.map .integer

def EntityRow.toJson (r : EntityRow) : Json :=
  .array [.string r.id, .string r.kind, .string r.name, .string r.filePath, r.startLine.toJson,
    r.endLine.toJson, .string r.language, Json.option .string r.metadata]

def EntityRow.ofJson? : Json → Option EntityRow
  | .array [.string id, .string kind, .string name, .string filePath, startLine, endLine,
      .string language, metadata] => do
    return {
      id, kind, name, filePath, language
      startLine := ← Cell.read? startLine
      endLine := ← Cell.read? endLine
      metadata := ← Json.allow Json.toString? (some metadata) }
  | _ => none

def RelationshipRow.toJson (r : RelationshipRow) : Json :=
  .array [.string r.id, .string r.sourceId, .string r.targetId, .string r.kind,
    Json.option .string r.metadata]

def RelationshipRow.ofJson? : Json → Option RelationshipRow
  | .array [.string id, .string sourceId, .string targetId, .string kind, metadata] => do
    return { id, sourceId, targetId, kind, metadata := ← Json.allow Json.toString? (some metadata) }
  | _ => none

def FileRecord.toRow (r : FileRecord) : Json :=
  .array [.nat r.id, .string r.filePath, .string r.contentHash, .string r.language]

def FileRecord.ofRow? : Json → Option FileRecord
  | .array [id, .string filePath, .string contentHash, .string language] => do
    return { id := (← id.toInt?).toNat, filePath, contentHash, language }
  | _ => none

def AppliedMigration.toRow (m : AppliedMigration) : Json := .array [.int m.version, .string m.name]

def AppliedMigration.ofRow? : Json → Option AppliedMigration
  | .array [version, .string name] => do return { version := ← version.toInt?, name }
  | _ => none

/-! ### Tables -/

namespace Table

def toJson (row : ρ → Json) (t : Table ρ) : Json :=
  .array [Json.list row t.rows, Json.list .string t.rejects]

def ofJson? (row : Json → Option ρ) : Json → Option (Table ρ)
  | .array [rows, rejects] => do
    return { rows := ← rows.toList? row, rejects := ← rejects.toList? Json.toString? }
  | _ => none

end Table

def FileTable.toJson (t : FileTable) : Json :=
  .array [t.toTable.toJson FileRecord.toRow, .nat t.lastId]

def FileTable.ofJson? : Json → Option FileTable
  | .array [table, lastId] => do
    return { toTable := ← Table.ofJson? FileRecord.ofRow? table, lastId := (← lastId.toInt?).toNat }
  | _ => none

namespace Tables

def toJson (t : Tables) : Json :=
  .array [
    Json.option (Table.toJson EntityRow.toJson) t.entities,
    Json.option (Table.toJson RelationshipRow.toJson) t.relationships,
    Json.option FileTable.toJson t.files,
    Json.option (Json.list AppliedMigration.toRow) t.ledger,
    Json.list .string t.others]

def ofJson? : Json → Option Tables
  | .array [entities, relationships, files, ledger, others] => do
    return {
      entities := ← Json.allow (Table.ofJson? EntityRow.ofJson?) (some entities)
      relationships := ← Json.allow (Table.ofJson? RelationshipRow.ofJson?) (some relationships)
      files := ← Json.allow FileTable.ofJson? (some files)
      ledger := ← Json.allow (Json.toList? AppliedMigration.ofRow?) (some ledger)
      others := ← others.toList? Json.toString? }
  | _ => none

end Tables

namespace Database

/-- The byte that starts a database file. It starts no text in UTF-8. -/
def mark : UInt8 := 0xFF

/-- The bytes of a database, with the count of its ids, so that none is given out again. -/
def encode (db : Database) : ByteArray :=
  ⟨#[mark]⟩ ++ (Json.array [db.tables.toJson, .nat db.idsUsed]).compact.toUTF8

def decode? (bytes : ByteArray) : Option Database :=
  if bytes.size = 0 then some {}
  else if bytes[0]? = some mark then do
    match ← Json.parse? (← String.fromUTF8? (bytes.extract 1 bytes.size)) with
    | .array [tables, idsUsed] =>
      return { tables := ← Tables.ofJson? tables, idsUsed := (← idsUsed.toInt?).toNat }
    | _ => none
  else none

/-- A path that stands for a database without a file. -/
def isUnnamed (path : String) : Bool := path = "" || path = ":memory:"

/-- Opens a database as it is. A missing file is made when the database is saved. -/
def connect (disk : Disk) (path : String) : Except Error Database :=
  if isUnnamed path then .ok {}
  else
    match disk.read path with
    | .ok content =>
      match decode? content with
      | some db => .ok db
      | none => .error (.storage .notADatabase)
    | .error .missing =>
      if (disk.target? path).isSome then .ok {} else .error (.storage (.cannotOpen path))
    | .error _ => .error (.storage (.cannotOpen path))

/-- Puts the content of a database into its file. -/
def save (path : String) (db : Database) (disk : Disk) : Disk :=
  if isUnnamed path then disk else (disk.write? path db.encode).getD disk

/-- Brings the schema of a database up to date. -/
def migrated (db : Database) : Except Error Database :=
  match Migrations.builtIn.run.runOn db with
  | (.ok _, db) => .ok db
  | (.error e, _) => .error e

end Database

end CodeAtlas
