import CodeAtlas.Number.Binary64

/-!
# JSON values

Values as they are read and written. An integer that fits in 64 bits, signed or not, is kept apart
from a binary64 number. Objects keep their members in written order, repetitions included, because
what a repetition means depends on the record that is read.
-/

namespace CodeAtlas

namespace Json

inductive Number where
  | integer (n : Int)
  | float (x : Binary64)
  deriving DecidableEq, Repr

end Json

inductive Json where
  | null
  | bool (b : Bool)
  | number (n : Json.Number)
  | string (s : String)
  | array (items : List Json)
  | object (members : List (String × Json))
  /-- Well formed, but no value: a number beyond the largest binary64, or a text or an object key
  with half of a surrogate pair. Such a value may stand where nobody reads it. -/
  | unreadable

namespace Json

def int (n : Int) : Json := .number (.integer n)

def nat (n : Nat) : Json := .number (.integer n)

/-- A value that may be absent, absence written as null. -/
def option (f : α → Json) : Option α → Json
  | none => .null
  | some a => f a

def list (f : α → Json) (items : List α) : Json := .array (items.map f)

/-- The first member of a key. -/
def member? (key : String) : Json → Option Json
  | .object members => members.lookup key
  | _ => none

def isNull : Json → Bool
  | .null => true
  | _ => false

/-- How deeply arrays and objects are nested, the outermost one counted. -/
def depth : Json → Nat
  | .array items => depthItems items + 1
  | .object members => depthMembers members + 1
  | _ => 0
where
  depthItems : List Json → Nat
    | [] => 0
    | v :: rest => max v.depth (depthItems rest)
  depthMembers : List (String × Json) → Nat
    | [] => 0
    | (_, v) :: rest => max v.depth (depthMembers rest)

end Json

end CodeAtlas
