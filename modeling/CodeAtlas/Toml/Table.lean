import CodeAtlas.Toml.Basic

/-!
# TOML tables

How the lines of a document build its tables. A key is given once. A header may not name a table
that has one already or that a dotted key made, and a dotted key adds only to tables that dotted
keys made.
-/

namespace CodeAtlas.Toml

namespace Entries

/-- Replaces the value of a key, or adds the key at the end. -/
def put (key : String) (v : Value) : Entries → Entries
  | [] => [(key, v)]
  | entry :: rest => if entry.1 = key then (key, v) :: rest else entry :: put key v rest

/-- Puts a value under a dotted key, whose last part must be new. -/
def assign (v : Value) : List String → Entries → Option Entries
  | [], _ => none
  | [key], entries => if (entries.lookup key).isSome then none else some (put key v entries)
  | key :: next :: path, entries =>
    match entries.lookup key with
    | none => (assign v (next :: path) []).map fun t => put key (.table .dotted t) entries
    | some (.table .dotted t) =>
      (assign v (next :: path) t).map fun t => put key (.table .dotted t) entries
    | some (.table .implied t) =>
      if path.isEmpty then none
      else (assign v (next :: path) t).map fun t => put key (.table .implied t) entries
    | some (.tables (t :: earlier)) =>
      if path.isEmpty then none
      else (assign v (next :: path) t).map fun t => put key (.tables (t :: earlier)) entries
    | some _ => none

/-- Changes what stands at the end of a header's path. Tables on the way are made where they are
missing; of an array of tables the last one is meant. -/
def alter (change : Option Value → Option Value) : List String → Entries → Option Entries
  | [], _ => none
  | [key], entries => (change (entries.lookup key)).map fun v => put key v entries
  | key :: next :: path, entries =>
    match entries.lookup key with
    | none => (alter change (next :: path) []).map fun t => put key (.table .implied t) entries
    | some (.table .braced _) => none
    | some (.table origin t) =>
      (alter change (next :: path) t).map fun t => put key (.table origin t) entries
    | some (.tables (t :: earlier)) =>
      (alter change (next :: path) t).map fun t => put key (.tables (t :: earlier)) entries
    | some _ => none

end Entries

/-- A document in the making: what it holds, and the table that its lines add to. -/
structure Document where
  root : Entries
  current : List String

namespace Document

def empty : Document := ⟨[], []⟩

/-- A line `[path]`. -/
def openTable (path : List String) (d : Document) : Option Document :=
  let change : Option Value → Option Value
    | none => some (.table .header [])
    | some (.table .implied t) => some (.table .header t)
    | some _ => none
  (Entries.alter change path d.root).map fun root => ⟨root, path⟩

/-- A line `[[path]]`. -/
def openNext (path : List String) (d : Document) : Option Document :=
  let change : Option Value → Option Value
    | none => some (.tables [[]])
    | some (.tables ts) => some (.tables ([] :: ts))
    | some _ => none
  (Entries.alter change path d.root).map fun root => ⟨root, path⟩

/-- A line `key = value`. -/
def assign (key : List String) (v : Value) (d : Document) : Option Document :=
  let change : Option Value → Option Value
    | some (.table origin t) => (Entries.assign v key t).map (.table origin)
    | some (.tables (t :: earlier)) => (Entries.assign v key t).map fun t => .tables (t :: earlier)
    | _ => none
  let root := match d.current with
    | [] => Entries.assign v key d.root
    | path => Entries.alter change path d.root
  root.map fun root => { d with root }

end Document

end CodeAtlas.Toml
