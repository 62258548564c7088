import CodeAtlas.Entity
import CodeAtlas.Path
import CodeAtlas.Relationship

/-!
# Extractions

What an extractor finds in one file: entities, and relationships that name their ends. Reading a
language is not part of this library, so an extractor is a function given from outside; one for a
plain notation of lines is given here.
-/

namespace CodeAtlas

structure Extraction where
  entities : List NewEntity := []
  relationships : List ExtractedRelationship := []

/-- Finds the entities of a file, given its path, its content and its language. -/
abbrev Extractor := (filePath content language : String) → Except Error Extraction

namespace Extraction

def ofJson? (v : Json) : Option Extraction := do
  match ← Json.record? .refused ["entities", "relationships"] v with
  | [entities, relationships] =>
    return {
      entities := ← Json.need (Json.toList? (NewEntity.ofJson? 2)) entities
      relationships := ← Json.need (Json.toList? (ExtractedRelationship.ofJson? 2)) relationships }
  | _ => none

def toJson (x : Extraction) : Json :=
  .object [("entities", Json.list NewEntity.toJson x.entities),
    ("relationships", Json.list ExtractedRelationship.toJson x.relationships)]

/-- Binds the entities to the file that they come from. An end of a relationship without a path is
taken to be in the same file; a path that is given is normalized like the file's own. -/
def anchor (base : Path) (filePath : String) (x : Extraction) : Extraction :=
  let pin (path : Option String) : Option String :=
    some (match path with
      | some p => base.normalize p
      | none => filePath)
  { entities := x.entities.map fun e => { e with filePath := filePath }
    relationships := x.relationships.map fun r =>
      { r with sourceFilePath := pin r.sourceFilePath, targetFilePath := pin r.targetFilePath } }

end Extraction

/-! ### A notation of lines -/

namespace Outline

/-- The lines of a text, each without its line feed and one carriage return before it. -/
def lines (cs : List Char) : List (List Char) :=
  (cs.splitOn '\n').map fun line => if line.getLast? == some '\r' then line.dropLast else line

/-- What follows a word at the start of a line. -/
def after? (word : String) (line : List Char) : Option (List Char) :=
  if word.toList.isPrefixOf line then some (line.drop word.length) else none

/-- The parts before and after the first place where a word stands. -/
def cut? (word : List Char) : List Char → Option (List Char × List Char)
  | [] => if word.isEmpty then some ([], []) else none
  | c :: rest =>
    if word.isPrefixOf (c :: rest) then some ([], (c :: rest).drop word.length)
    else (cut? word rest).map fun (before, after) => (c :: before, after)

def trimmed (cs : List Char) : String := String.ofList (Text.trimChars cs)

/-- What a line says. -/
inductive Line where
  | function (name : String)
  | call (source target : String) (targetPath : Option String)
  /-- A function that ends before it starts. -/
  | inverted (name : String)
  | failure
  | other
  deriving DecidableEq, Repr

/-- Reads `fn NAME`, `A -> B`, `A -> B@PATH`, `inverted NAME` and `!fail`. -/
def Line.ofChars (line : List Char) : Line :=
  match after? "fn " line with
  | some name => .function (trimmed name)
  | none =>
    match cut? ['-', '>'] line with
    | some (source, target) =>
      match cut? ['@'] target with
      | some (name, path) => .call (trimmed source) (trimmed name) (some (trimmed path))
      | none => .call (trimmed source) (trimmed target) none
    | none =>
      match after? "inverted " line with
      | some name => .inverted (trimmed name)
      | none => if trimmed line == "!fail" then .failure else .other

/-- The entity that a line of the given number declares. -/
def Line.entity? (language : String) (number : UInt32) : Line → Option NewEntity
  | .function name =>
    some {
      kind := .function, name, filePath := "", startLine := number, endLine := number, language }
  | .inverted name =>
    some { kind := .function, name, filePath := "", startLine := number + 5, endLine := number,
           language }
  | _ => none

def Line.relationship? : Line → Option ExtractedRelationship
  | .call source target path =>
    some { kind := .calls, sourceName := source, targetName := target, targetFilePath := path }
  | _ => none

/-- An outline with a failing line has no extraction. -/
def extract : Extractor := fun _ content language =>
  let read := (lines content.toList).map Line.ofChars
  if read.contains .failure then .error (.validation (.other "syntax error"))
  else
    .ok {
      entities := (read.zipIdx 1).filterMap fun (line, number) => line.entity? language (.ofNat number)
      relationships := read.filterMap Line.relationship? }

end Outline

end CodeAtlas
