import CodeAtlas.Error
import CodeAtlas.Json.Record
import CodeAtlas.Metadata
import CodeAtlas.Text.Case

/-!
# Relationships

The edges of the code graph. All kinds but `contains`, which is structural, are dependencies of
the source on the target.
-/

namespace CodeAtlas

inductive RelationshipKind where
  | calls | imports | extends | implements | contains
  deriving DecidableEq, Repr

namespace RelationshipKind

def name : RelationshipKind → String
  | .calls => "calls"
  | .imports => "imports"
  | .extends => "extends"
  | .implements => "implements"
  | .contains => "contains"

/-- All kinds, in the order in which they are listed and counted. -/
def all : List RelationshipKind := [.calls, .imports, .extends, .implements, .contains]

def isDependency : RelationshipKind → Bool
  | .contains => false
  | _ => true

def dependencies : List RelationshipKind := [.calls, .imports, .extends, .implements]

/-- The kinds by which code is in use, so that their targets are not dead. -/
def isUsage : RelationshipKind → Bool
  | .calls | .extends | .implements => true
  | _ => false

def usages : List RelationshipKind := [.calls, .extends, .implements]

/-- The kind with exactly this name. -/
def ofName? (s : String) : Option RelationshipKind := all.find? (·.name == s)

/-- The kind that a text names in any case of its letters. -/
def parse? (s : String) : Option RelationshipKind := ofName? (Text.lowerWord s)

def parse (s : String) : Except Error RelationshipKind :=
  match parse? s with
  | some kind => .ok kind
  | none => .error (.invalidKind (unknownKindText "relationship" s))

def ofJson? (v : Json) : Option RelationshipKind := (Json.constantName? v).bind ofName?

end RelationshipKind

/-- An edge between two ids, ready for insertion. -/
structure NewRelationship where
  sourceId : String
  targetId : String
  kind : RelationshipKind
  metadata : Option Metadata := none

namespace NewRelationship

def validate (r : NewRelationship) : Except Error Unit :=
  if r.sourceId = "" ∨ r.targetId = "" then
    .error (.validation (.relationshipEnds r.kind.name))
  else .ok ()

/-- The operation of inserting the edge, as errors name it. -/
def insertion (r : NewRelationship) : String :=
  "insert " ++ r.kind.name ++ " relationship " ++ r.sourceId ++ " -> " ++ r.targetId

end NewRelationship

/-- An edge of the store. -/
structure Relationship extends NewRelationship where
  id : String

namespace Relationship

/-- Edges are the same when they join the same ends in the same way. -/
instance : BEq Relationship where
  beq a b := a.sourceId == b.sourceId && a.targetId == b.targetId && a.kind == b.kind

instance : Hashable Relationship where
  hash r := mixHash (hash r.sourceId) (mixHash (hash r.targetId) (hash r.kind.name))

def toJson (r : Relationship) : Json :=
  .object ([("id", .string r.id), ("sourceId", .string r.sourceId),
    ("targetId", .string r.targetId), ("type", .string r.kind.name)]
    ++ (r.metadata.map fun m => ("metadata", m.toJson)).toList)

end Relationship

/-- An edge between two names, as an extractor delivers it. An end without a file path is at a
place unknown to the resolver. -/
structure ExtractedRelationship where
  kind : RelationshipKind
  sourceName : String
  targetName : String
  sourceFilePath : Option String := none
  targetFilePath : Option String := none
  metadata : Option Metadata := none

namespace ExtractedRelationship

def fieldNames : List String :=
  ["type", "sourceName", "targetName", "sourceFilePath", "targetFilePath", "metadata"]

/-- The edge of a JSON record that stands inside of `outer` other containers. -/
def ofJson? (outer : Nat) (v : Json) : Option ExtractedRelationship := do
  match ← Json.record? .refused fieldNames v with
  | [kind, sourceName, targetName, sourceFilePath, targetFilePath, metadata] =>
    return {
      kind := ← Json.need RelationshipKind.ofJson? kind
      sourceName := ← Json.need Json.toString? sourceName
      targetName := ← Json.need Json.toString? targetName
      sourceFilePath := ← Json.allow Json.toString? sourceFilePath
      targetFilePath := ← Json.allow Json.toString? targetFilePath
      metadata := ← Json.allow (Metadata.ofJson? (outer + 1)) metadata }
  | _ => none

def toJson (r : ExtractedRelationship) : Json :=
  let given (key : String) (path : Option String) := (path.map fun p => (key, Json.string p)).toList
  .object ([("type", .string r.kind.name), ("sourceName", .string r.sourceName),
    ("targetName", .string r.targetName)]
    ++ given "sourceFilePath" r.sourceFilePath ++ given "targetFilePath" r.targetFilePath
    ++ (r.metadata.map fun m => ("metadata", m.toJson)).toList)

end ExtractedRelationship

end CodeAtlas
