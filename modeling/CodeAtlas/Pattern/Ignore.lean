import CodeAtlas.Pattern.Glob
import CodeAtlas.Text.Blank

/-!
# Ignore rules

The lines of an ignore file, and what a list of them says about a path: the last rule that matches
decides, a rule in `!` keeps what it matches, and a rule that ends in a slash is about directories
only. A rule with a slash in front or inside is about the path from the file's own directory on;
any other one matches in every directory below it.
-/

namespace CodeAtlas.Ignore

structure Rule where
  /-- Keeps what it matches instead of ignoring it. -/
  keeps : Bool
  onlyDirectories : Bool
  glob : List Glob.Token

inductive Verdict where
  | none | ignore | keep
  deriving DecidableEq, Repr

def Verdict.orElse (v w : Verdict) : Verdict :=
  match v with
  | .none => w
  | _ => v

def startsWith (s : String) (cs : List Char) : Bool := s.toList.isPrefixOf cs

def endsWith (s : String) (cs : List Char) : Bool := s.toList.isSuffixOf cs

/-- A line without its sign, slash in front and slash at the end: whether it keeps, whether it is
about the path from the start, whether it is about directories, and what is left. -/
def markers (line : List Char) : Bool × Bool × Bool × List Char :=
  let (keeps, fromStart, line) :=
    if startsWith "\\!" line || startsWith "\\#" line then
      (false, false, line.drop 1)
    else
      let keeps := startsWith "!" line
      let line := if keeps then line.drop 1 else line
      let fromStart := startsWith "/" line
      (keeps, fromStart, if fromStart then line.drop 1 else line)
  let onlyDirectories := endsWith "/" line
  let line := if onlyDirectories then line.dropLast else line
  let line := if onlyDirectories && endsWith "\\" line then line.dropLast else line
  (keeps, fromStart, onlyDirectories, line)

/-- The glob that a line without its markers stands for. -/
def globText (fromStart : Bool) (line : List Char) : List Char :=
  let anywhere := !fromStart && !line.contains '/' && line != ['*', '*']
  let line := if anywhere then ['*', '*', '/'] ++ line else line
  if endsWith "/**" line then line ++ ['/', '*'] else line

/-- The rule of a line. A comment, a blank line and an invalid glob give none. Blanks at the end do
not count, unless the last one is a space after a backslash. -/
def Rule.ofLine? (line : List Char) : Option Rule :=
  if startsWith "#" line then none
  else
    let line := if endsWith "\\ " line then line else Text.trimEndChars line
    if line.isEmpty then none
    else
      let (keeps, fromStart, onlyDirectories, line) := markers line
      (Glob.ofChars? (globText fromStart line)).map (⟨keeps, onlyDirectories, ·⟩)

def Rule.ofString? (line : String) : Option Rule := Rule.ofLine? line.toList

/-- The lines of a file. A line ends in a line feed, with or without a carriage return before it; at
the end of the file, where no line feed follows, a carriage return belongs to the line. -/
def linesOf (content : ByteArray) : List Glob.Bytes :=
  let parts := content.toList.splitOn 10
  parts.dropLast.map (fun line => if line.getLast? == some 13 then line.dropLast else line)
    ++ parts.getLast?.toList

/-- The rules of an ignore file. A line that is no UTF-8 ends the file. -/
def rulesOfFile (content : ByteArray) : List Rule :=
  let texts := (linesOf content).map fun line => String.fromUTF8? ⟨line.toArray⟩
  let sound := (texts.takeWhile Option.isSome).filterMap id
  let unmarked := match sound with
    | [] => []
    | first :: rest => first.toList.dropWhile (· == '\ufeff') :: rest.map String.toList
  unmarked.filterMap Rule.ofLine?

/-- What a rule says about a path. The directory of an ignore file is the empty path. -/
def Rule.verdict (path : Glob.Bytes) (isDirectory : Bool) (r : Rule) : Verdict :=
  if (!r.onlyDirectories || isDirectory) && Glob.matches r.glob path then
    if r.keeps then .keep else .ignore
  else .none

/-- What the last matching rule says about a path. -/
def verdict (rules : List Rule) (path : Glob.Bytes) (isDirectory : Bool) : Verdict :=
  rules.foldl (fun v r => (r.verdict path isDirectory).orElse v) .none

/-- The path of some components below the directory of the rules. -/
def pathOf (components : List String) : Glob.Bytes :=
  Glob.bytesOf ("/".intercalate components)

/-- What the rules say about a path or else about the nearest directory above it, up to the
directory of the rules itself. The components are those of the path below that directory, the last
one first. -/
def verdictUp (rules : List Rule) (isDirectory : Bool) : List String → Verdict
  | [] => verdict rules [] isDirectory
  | name :: above =>
    (verdict rules (pathOf (name :: above).reverse) isDirectory).orElse (verdictUp rules true above)

end CodeAtlas.Ignore
