import CodeAtlas.Error
import CodeAtlas.Json.Record
import CodeAtlas.Metadata
import CodeAtlas.Text.Blank
import CodeAtlas.Text.Case

/-!
# Entities

The nodes of the code graph: functions, classes, methods, modules, files and types.
-/

namespace CodeAtlas

inductive EntityKind where
  | function | «class» | method | module | file | type
  deriving DecidableEq, Repr

namespace EntityKind

def name : EntityKind → String
  | .function => "function"
  | .class => "class"
  | .method => "method"
  | .module => "module"
  | .file => "file"
  | .type => "type"

/-- All kinds, in the order in which they are listed and counted. -/
def all : List EntityKind := [.function, .class, .method, .module, .file, .type]

/-- The kinds that the search for dead code considers. -/
def isCodeUnit : EntityKind → Bool
  | .function | .class | .method => true
  | _ => false

/-- The kind with exactly this name. -/
def ofName? (s : String) : Option EntityKind := all.find? (·.name == s)

/-- The kind that a text names in any case of its letters. -/
def parse? (s : String) : Option EntityKind := ofName? (Text.lowerWord s)

def parse (s : String) : Except Error EntityKind :=
  match parse? s with
  | some kind => .ok kind
  | none => .error (.invalidKind (unknownKindText "entity" s))

def ofJson? (v : Json) : Option EntityKind := (Json.constantName? v).bind ofName?

end EntityKind

/-- An entity as an extractor delivers it, before the store has given it an id. Lines count from
one, and the last line belongs to the entity. -/
structure NewEntity where
  kind : EntityKind
  name : String
  filePath : String
  startLine : UInt32
  endLine : UInt32
  language : String
  metadata : Option Metadata := none

namespace NewEntity

/-- Attaches a metadata entry. -/
def withMeta (e : NewEntity) (key : String) (value : MetadataValue) : NewEntity :=
  { e with metadata := some (Metadata.insert key value (e.metadata.getD [])) }

/-- The first reason for which the store must not hold this entity. -/
def fault? (e : NewEntity) : Option Invalid :=
  if Text.isBlankText e.name then some .entityName
  else if Text.isBlankText e.filePath then some (.entityPath e.name)
  else if e.startLine = 0 then some (.entityStart e.name)
  else if e.endLine < e.startLine then some (.entityLines e.name e.endLine.toNat e.startLine.toNat)
  else none

def validate (e : NewEntity) : Except Error Unit :=
  match e.fault? with
  | some cause => .error (.validation cause)
  | none => .ok ()

def fieldNames : List String :=
  ["type", "name", "filePath", "startLine", "endLine", "language", "metadata"]

/-- The entity of a JSON record that stands inside of `outer` other containers. -/
def ofJson? (outer : Nat) (v : Json) : Option NewEntity := do
  match ← Json.record? .refused fieldNames v with
  | [kind, name, filePath, startLine, endLine, language, metadata] =>
    return {
      kind := ← Json.need EntityKind.ofJson? kind
      name := ← Json.need Json.toString? name
      filePath := ← Json.need Json.toString? filePath
      startLine := ← Json.need Json.toUInt32? startLine
      endLine := ← Json.need Json.toUInt32? endLine
      language := ← Json.need Json.toString? language
      metadata := ← Json.allow (Metadata.ofJson? (outer + 1)) metadata }
  | _ => none

/-- The members that describe an entity, metadata left out when there is none. -/
def members (e : NewEntity) : List (String × Json) :=
  [("type", .string e.kind.name), ("name", .string e.name), ("filePath", .string e.filePath),
    ("startLine", .nat e.startLine.toNat), ("endLine", .nat e.endLine.toNat),
    ("language", .string e.language)]
    ++ (e.metadata.map fun m => ("metadata", m.toJson)).toList

def toJson (e : NewEntity) : Json := .object e.members

end NewEntity

/-- An entity of the store. -/
structure Entity extends NewEntity where
  id : String

namespace Entity

/-- The metadata keys by which an extractor marks what belongs to a module's public surface. -/
def exportKeys : List String := ["exported", "isExported"]

def isExported (e : Entity) : Bool :=
  exportKeys.any fun key =>
    (((e.metadata.getD []).find? key).bind MetadataValue.asBool).getD false

/-- Entities are the same when their ids are. -/
instance : BEq Entity := ⟨fun a b => a.id == b.id⟩

instance : Hashable Entity := ⟨fun e => hash e.id⟩

def toJson (e : Entity) : Json := .object (("id", .string e.id) :: e.toNewEntity.members)

end Entity

end CodeAtlas
