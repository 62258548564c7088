import CodeAtlas.Entity
import CodeAtlas.Relationship

/-!
# Rows

What the store keeps of an entity or a relationship, column by column, and how it is read back. A
row that the library wrote always reads back; one that was changed from outside may hold a type that
is none or a line that is no line number, and then whatever reads it fails.
-/

namespace CodeAtlas

/-- The content of a number column. Text can get there from outside only. -/
inductive Cell where
  | integer (n : Int)
  | text (s : String)
  deriving DecidableEq, Repr

/-- Numbers before texts, texts by code points. -/
def Cell.le : Cell → Cell → Bool
  | .integer a, .integer b => a ≤ b
  | .integer _, .text _ => true
  | .text _, .integer _ => false
  | .text a, .text b => a ≤ b

/-- The line number in a cell. -/
def Cell.line (column : Nat) (name : String) : Cell → Except StorageFault UInt32
  | .integer n =>
    if 0 ≤ n ∧ n < UInt32.size then .ok (.ofNat n.toNat) else .error (.outOfRange n column)
  | .text _ => .error (.notANumber column name)

structure EntityRow where
  id : String
  kind : String
  name : String
  filePath : String
  startLine : Cell
  endLine : Cell
  language : String
  /-- The text of the metadata. -/
  metadata : Option String
  deriving DecidableEq, Repr

namespace EntityRow

def ofEntity (e : Entity) : EntityRow where
  id := e.id
  kind := e.kind.name
  name := e.name
  filePath := e.filePath
  startLine := .integer e.startLine.toNat
  endLine := .integer e.endLine.toNat
  language := e.language
  metadata := Metadata.encode e.metadata

def read (r : EntityRow) : Except StorageFault Entity :=
  match EntityKind.parse? r.kind with
  | none => .error (.unknownKind 1 "entity" r.kind)
  | some kind => do
    let startLine ← r.startLine.line 4 "start_line"
    let endLine ← r.endLine.line 5 "end_line"
    return {
      id := r.id, kind, name := r.name, filePath := r.filePath, startLine, endLine
      language := r.language, metadata := Metadata.decode r.metadata }

end EntityRow

structure RelationshipRow where
  id : String
  sourceId : String
  targetId : String
  kind : String
  /-- The text of the metadata. -/
  metadata : Option String
  deriving DecidableEq, Repr

namespace RelationshipRow

def ofRelationship (r : Relationship) : RelationshipRow where
  id := r.id
  sourceId := r.sourceId
  targetId := r.targetId
  kind := r.kind.name
  metadata := Metadata.encode r.metadata

def read (r : RelationshipRow) : Except StorageFault Relationship :=
  match RelationshipKind.parse? r.kind with
  | none => .error (.unknownKind 3 "relationship" r.kind)
  | some kind =>
    .ok { id := r.id, sourceId := r.sourceId, targetId := r.targetId, kind
          metadata := Metadata.decode r.metadata }

/-- Whether the edge has an entity at one of its ends. -/
def touches (id : String) (r : RelationshipRow) : Bool := r.sourceId == id || r.targetId == id

/-- Whether two edges join the same ends in the same way. -/
def sameEdge (a b : RelationshipRow) : Bool :=
  a.sourceId == b.sourceId && a.targetId == b.targetId && a.kind == b.kind

end RelationshipRow

/-- Where the entities of one file came from: the hash of the content that they were found in. -/
structure FileRecord where
  id : Nat
  filePath : String
  contentHash : String
  language : String
  deriving DecidableEq, Repr

/-- A migration that was applied. -/
structure AppliedMigration where
  version : Int
  name : String
  deriving DecidableEq, Repr

end CodeAtlas
