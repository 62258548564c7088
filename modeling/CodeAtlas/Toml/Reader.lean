import CodeAtlas.Toml.Scalar
import CodeAtlas.Toml.Table
import CodeAtlas.Toml.Text

/-!
# Reading TOML

The grammar of a document: lines that open a table or give a value to a key, blank lines and
comments between them. Values and dotted keys have a limited depth.
-/

namespace CodeAtlas.Toml.Reader

open CodeAtlas.Toml.Text (isSpace isPlain)

def skipSpace (cs : List Char) : List Char := cs.dropWhile isSpace

/-- Passes over spaces, line ends and comments. A comment that does not reach a line end stops at
the character that it may not hold. -/
def skipBlank (inComment : Bool) : List Char → List Char
  | '\n' :: rest => skipBlank false rest
  | '\r' :: '\n' :: rest => skipBlank false rest
  | '#' :: rest => skipBlank true rest
  | c :: rest =>
    if inComment then (if isPlain c then skipBlank true rest else c :: rest)
    else if isSpace c then skipBlank false rest else c :: rest
  | [] => []

/-- The end of a line, behind spaces and a comment, and what follows it. -/
def endLine (cs : List Char) : Option (List Char) :=
  let rest := match skipSpace cs with
    | '#' :: comment => comment.dropWhile isPlain
    | rest => rest
  match rest with
  | [] => some []
  | '\n' :: rest => some rest
  | '\r' :: '\n' :: rest => some rest
  | _ => none

/-! ### Keys -/

def isBare (c : Char) : Bool := c.isAlphanum || c == '_' || c == '-'

/-- One part of a key, bare or quoted. -/
def part : List Char → Option (String × List Char)
  | '"' :: rest => Text.basic [] rest
  | '\'' :: rest => Text.literal [] rest
  | cs =>
    match cs.takeWhile isBare with
    | [] => none
    | name => some (String.ofList name, cs.dropWhile isBare)

/-- A key of at most `most` parts with dots between them, and spaces around any part. -/
def key : (most : Nat) → List Char → Option (List String × List Char)
  | 0, _ => none
  | most + 1, cs =>
    match part (skipSpace cs) with
    | none => none
    | some (name, rest) =>
      match skipSpace rest with
      | '.' :: rest => (key most rest).map fun (names, rest) => (name :: names, rest)
      | rest => some ([name], rest)

/-- The most parts of a key, and the most brackets around a value. -/
def maxDepth : Nat := 79

/-! ### Values -/

mutual

/-- A value inside of which at most `depth` brackets may be open. -/
def value : (fuel depth : Nat) → List Char → Option (Value × List Char)
  | 0, _, _ => none
  | fuel + 1, depth, cs =>
    match cs, depth with
    | '[' :: _, 0 => none
    | '{' :: _, 0 => none
    | '[' :: rest, depth + 1 =>
      (items fuel depth (skipBlank false rest)).map fun (vs, rest) => (.array vs, rest)
    | '{' :: rest, depth + 1 =>
      match skipSpace rest with
      | '}' :: rest => some (.table .braced [], rest)
      | rest => (pairs fuel depth [] rest).map fun (entries, rest) => (.table .braced entries, rest)
    | '"' :: _, _ => (Text.read cs).map fun (s, rest) => (.string s, rest)
    | '\'' :: _, _ => (Text.read cs).map fun (s, rest) => (.string s, rest)
    | _, _ => Scalar.read cs

/-- The rest of an array, at an item or at the closing bracket. -/
def items : (fuel depth : Nat) → List Char → Option (List Value × List Char)
  | 0, _, _ => none
  | _ + 1, _, ']' :: rest => some ([], rest)
  | fuel + 1, depth, cs =>
    match value fuel depth cs with
    | none => none
    | some (v, rest) =>
      match skipBlank false rest with
      | ',' :: rest =>
        (items fuel depth (skipBlank false rest)).map fun (vs, rest) => (v :: vs, rest)
      | ']' :: rest => some ([v], rest)
      | _ => none

/-- The rest of a braced table, at a key. -/
def pairs : (fuel depth : Nat) → Entries → List Char → Option (Entries × List Char)
  | 0, _, _, _ => none
  | fuel + 1, depth, entries, cs =>
    match key maxDepth cs with
    | some (path, '=' :: rest) =>
      match value fuel depth (skipSpace rest) with
      | none => none
      | some (v, rest) =>
        match Entries.assign v path entries with
        | none => none
        | some entries =>
          match skipSpace rest with
          | ',' :: rest => pairs fuel depth entries rest
          | '}' :: rest => some (entries, rest)
          | _ => none
    | _ => none

end

/-! ### Lines -/

/-- A line at its first character that is no space, and what follows its end. -/
def line (d : Document) (cs : List Char) : Option (Document × List Char) :=
  match cs with
  | '[' :: '[' :: rest =>
    match key maxDepth rest with
    | some (path, ']' :: ']' :: rest) => do
      let rest ← endLine rest
      let d ← d.openNext path
      return (d, rest)
    | _ => none
  | '[' :: rest =>
    match key maxDepth rest with
    | some (path, ']' :: rest) => do
      let rest ← endLine rest
      let d ← d.openTable path
      return (d, rest)
    | _ => none
  | cs =>
    match key maxDepth cs with
    | some (path, '=' :: rest) => do
      let (v, rest) ← value (rest.length + 1) maxDepth (skipSpace rest)
      let rest ← endLine rest
      let d ← d.assign path v
      return (d, rest)
    | _ => none

/-- All lines. Every line takes a character, so that the number of characters is fuel enough. -/
def lines : (fuel : Nat) → Document → List Char → Option Document
  | 0, d, cs => if cs.isEmpty then some d else none
  | fuel + 1, d, cs =>
    match skipSpace cs with
    | [] => some d
    | '\n' :: rest => lines fuel d rest
    | '\r' :: '\n' :: rest => lines fuel d rest
    | '#' :: rest =>
      match endLine ('#' :: rest) with
      | none => none
      | some rest => lines fuel d rest
    | cs =>
      match line d cs with
      | none => none
      | some (d, rest) => lines fuel d rest

end Reader

/-- The entries of a document, which may start with a byte order mark. -/
def parse? (s : String) : Option Entries :=
  let cs := match s.toList with
    | '\ufeff' :: rest => rest
    | cs => cs
  (Reader.lines cs.length .empty cs).map (·.root)

end CodeAtlas.Toml
