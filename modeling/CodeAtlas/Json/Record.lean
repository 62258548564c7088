import CodeAtlas.Json.Basic

/-!
# Records in JSON

A record is read from an object by its field names, or from an array by position. Unknown members
are passed over unread; a field given twice is an error.
-/

namespace CodeAtlas.Json

/-- Whether an array may hold more items than the record has fields. -/
inductive Surplus where
  | refused
  | ignored
  deriving DecidableEq

/-- The values of the named fields, in the order of the names. -/
def record? (surplus : Surplus) (names : List String) : Json → Option (List (Option Json))
  | .object members =>
    if names.any fun name => 1 < (members.filter (·.1 == name)).length then none
    else some (names.map fun name => members.lookup name)
  | .array items =>
    if names.length < items.length ∧ surplus = .refused then none
    else some ((List.range names.length).map (items[·]?))
  | _ => none

/-- The constant that a JSON value names: its name, or an object with the name as only key and
null as value. -/
def constantName? : Json → Option String
  | .string s => some s
  | .object [(key, .null)] => some key
  | _ => none

def toString? : Json → Option String
  | .string s => some s
  | _ => none

def toBool? : Json → Option Bool
  | .bool b => some b
  | _ => none

/-- An integer literal; `1.0` and `1e0` are none. -/
def toInt? : Json → Option Int
  | .number (.integer n) => some n
  | _ => none

/-- An integer literal from zero up to a bound. -/
def toNat? (bound : Nat) (v : Json) : Option Nat :=
  match v.toInt? with
  | some (.ofNat n) => if n ≤ bound then some n else none
  | _ => none

/-- An integer literal of 32 bits. -/
def toUInt32? (v : Json) : Option UInt32 := (v.toNat? (UInt32.size - 1)).map UInt32.ofNat

def toList? (read : Json → Option α) : Json → Option (List α)
  | .array items => items.mapM read
  | _ => none

/-- A field that must be there. -/
def need (read : Json → Option α) : Option Json → Option α
  | some v => read v
  | none => none

/-- A field that may be left out or be null. -/
def allow (read : Json → Option α) : Option Json → Option (Option α)
  | none => some none
  | some .null => some none
  | some v => (read v).map some

/-- A field that may be left out, but is not null when it is there. -/
def withDefault (default : α) (read : Json → Option α) : Option Json → Option α
  | none => some default
  | some v => read v

end CodeAtlas.Json
