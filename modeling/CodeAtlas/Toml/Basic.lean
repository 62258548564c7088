import CodeAtlas.Json.Basic

/-!
# TOML values

Values of a TOML document. A table knows how it came to be, because that decides whether a later
line may still add to it.
-/

namespace CodeAtlas.Toml

/-- How a table came to be. -/
inductive Origin where
  /-- By a header of its own. -/
  | header
  /-- On the way of a longer header. -/
  | implied
  /-- By a dotted key. -/
  | dotted
  /-- Between braces, all at once. -/
  | braced
  deriving DecidableEq, Repr

inductive Value where
  | string (s : String)
  | integer (n : Int)
  | float
  | bool (b : Bool)
  | date
  | array (items : List Value)
  /-- Entries in the order in which their keys first appear. -/
  | table (origin : Origin) (entries : List (String × Value))
  /-- An array of tables, its last table first. -/
  | tables (reversed : List (List (String × Value)))

abbrev Entries := List (String × Value)

mutual

/-- A value as the reader of records takes it. No record has a float field; a date is a record of
its own kind, without any member that another record would know. -/
def Value.toJson : Value → Json
  | .string s => .string s
  | .integer n => .int n
  | .float => .unreadable
  | .bool b => .bool b
  | .date => .object [("$datetime", .null)]
  | .array items => .array (itemsToJson items)
  | .table _ entries => .object (membersToJson entries)
  | .tables reversed => .array (tablesToJson reversed).reverse

def itemsToJson : List Value → List Json
  | [] => []
  | v :: rest => v.toJson :: itemsToJson rest

def membersToJson : List (String × Value) → List (String × Json)
  | [] => []
  | (k, v) :: rest => (k, v.toJson) :: membersToJson rest

def tablesToJson : List (List (String × Value)) → List Json
  | [] => []
  | entries :: rest => .object (membersToJson entries) :: tablesToJson rest

end

end CodeAtlas.Toml
