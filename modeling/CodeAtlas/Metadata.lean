import CodeAtlas.Json.Printer
import CodeAtlas.Json.Reader

/-!
# Metadata

Open-ended key and value maps that entities and relationships carry. A map is kept sorted by key,
one entry a key. The store holds a map as JSON text; an empty map is held as nothing, and a text
that is no map reads as no metadata instead of failing the row that it belongs to.
-/

namespace CodeAtlas

inductive MetadataValue where
  | bool (b : Bool)
  | number (x : Binary64)
  | string (s : String)
  | list (items : List MetadataValue)
  /-- Entries in ascending order of their keys. -/
  | map (entries : List (String × MetadataValue))

/-- Entries in ascending order of their keys. -/
abbrev Metadata := List (String × MetadataValue)

namespace MetadataValue

def asBool : MetadataValue → Option Bool
  | .bool b => some b
  | _ => none

def asString : MetadataValue → Option String
  | .string s => some s
  | _ => none

def asNumber : MetadataValue → Option Binary64
  | .number x => some x
  | _ => none

end MetadataValue

namespace Metadata

/-- Puts a value under a key, in place of the one that was there. -/
def insert (key : String) (value : α) : List (String × α) → List (String × α)
  | [] => [(key, value)]
  | (k, v) :: rest =>
    if key < k then (key, value) :: (k, v) :: rest
    else if key = k then (key, value) :: rest
    else (k, v) :: insert key value rest

/-- The entries in ascending order of their keys, the last of several values for one key kept. -/
def ofEntries (entries : List (String × α)) : List (String × α) :=
  entries.foldl (fun m (k, v) => insert k v m) []

def find? (m : Metadata) (key : String) : Option MetadataValue := m.lookup key

end Metadata

namespace MetadataValue

/-! ### JSON form -/

/-- The number of a JSON number. -/
def ofNumber : Json.Number → Binary64
  | .integer n => .ofInt n
  | .float x => x

mutual

/-- The metadata value of a JSON value. Null is none, wherever it stands. -/
def ofJson? : Json → Option MetadataValue
  | .bool b => some (.bool b)
  | .number n => some (.number (ofNumber n))
  | .string s => some (.string s)
  | .array items => (ofItems? items).map .list
  | .object members => (ofMembers? members).map fun es => .map (Metadata.ofEntries es)
  | .null => none
  | .unreadable => none

def ofItems? : List Json → Option (List MetadataValue)
  | [] => some []
  | v :: rest => do return (← ofJson? v) :: (← ofItems? rest)

def ofMembers? : List (String × Json) → Option (List (String × MetadataValue))
  | [] => some []
  | (k, v) :: rest => do return (k, ← ofJson? v) :: (← ofMembers? rest)

end

mutual

def toJson : MetadataValue → Json
  | .bool b => .bool b
  | .number x => .number (.float x)
  | .string s => .string s
  | .list items => .array (toItems items)
  | .map entries => .object (toMembers entries)

def toItems : List MetadataValue → List Json
  | [] => []
  | v :: rest => v.toJson :: toItems rest

def toMembers : List (String × MetadataValue) → List (String × Json)
  | [] => []
  | (k, v) :: rest => (k, v.toJson) :: toMembers rest

end

end MetadataValue

namespace Metadata

/-- How deeply a JSON text may be nested, its outermost container counted. -/
def maxDepth : Nat := 127

def toJson (m : Metadata) : Json := .object (MetadataValue.toMembers m)

/-- The map of a JSON object that stands inside of `outer` other containers. -/
def ofJson? (outer : Nat) (v : Json) : Option Metadata :=
  match v with
  | .object members =>
    if v.depth + outer ≤ maxDepth then (MetadataValue.ofMembers? members).map ofEntries else none
  | _ => none

/-- The text that the store keeps. -/
def encode : Option Metadata → Option String
  | none => none
  | some [] => none
  | some m => some m.toJson.compact

/-- What a stored text stands for. -/
def decode (raw : Option String) : Option Metadata :=
  raw.bind fun text => (Json.parse? text).bind (ofJson? 0)

end Metadata

end CodeAtlas
