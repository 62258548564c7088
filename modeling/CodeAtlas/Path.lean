/-!
# Paths

Absolute paths as lists of components, and the lexical reading of a path text: repeated slashes and
`.` vanish, `..` takes the component before it away. No file needs to exist, and links are not
followed.
-/

namespace CodeAtlas

/-- An absolute path, as its components from the root on. -/
structure Path where
  components : List String
  deriving DecidableEq, Repr

namespace Path

/-- The parts of a text between the slashes. -/
def split (s : String) : List (List Char) := s.toList.splitOn '/'

/-- The components of a path text: neither empty nor `.`. -/
def componentsOf (s : String) : List String :=
  ((split s).map String.ofList).filter fun part => part != "" && part != "."

def isAbsolute (s : String) : Bool := s.toList.head? == some '/'

/-- Goes on from a path by one component; `..` goes up, and at the root stays there. -/
def enter (path : List String) (component : String) : List String :=
  if component = ".." then path.dropLast else path ++ [component]

/-- The path that a text names, seen from a directory. -/
def resolve (base : Path) (s : String) : Path :=
  ⟨(componentsOf s).foldl enter (if isAbsolute s then [] else base.components)⟩

def text (p : Path) : String :=
  match p.components with
  | [] => "/"
  | parts => String.join (parts.map ("/" ++ ·))

/-- The text under which a file is kept in the graph. -/
def normalize (base : Path) (s : String) : String := (base.resolve s).text

def child (p : Path) (name : String) : Path := ⟨p.components ++ [name]⟩

def parent (p : Path) : Path := ⟨p.components.dropLast⟩

/-- A path text seen from a directory that is given as a text too. -/
def join (base s : String) : String :=
  if base = "" || isAbsolute s then s
  else if base.toList.getLast? == some '/' then base ++ s
  else base ++ "/" ++ s

/-- The text of the directory in which a path text names an entry; empty for the current one. -/
def directoryOf (s : String) : String :=
  let parts := (split s).reverse.dropWhile fun part => part == [] || part == ['.']
  match parts.tail.reverse with
  | [[]] => "/"
  | parts => "/".intercalate (parts.map String.ofList)

/-- Whether a path text lies at or below a directory, compared component by component: `/repo-old`
is not below `/repo`. -/
def isBelow (root : Path) (s : String) : Bool :=
  isAbsolute s && root.components.isPrefixOf (componentsOf s)

/-- The last component, unless it is `..`. -/
def fileName? (s : String) : Option String :=
  match (componentsOf s).getLast? with
  | some name => if name = ".." then none else some name
  | none => none

/-- A file name cut at its last dot: the part before and the part after. A dot in front does not
count. -/
def cutAtDot (name : String) : String × Option String :=
  let cs := name.toList
  let after := cs.reverse.takeWhile (· != '.')
  let before := (cs.reverse.drop (after.length + 1)).reverse
  if cs.contains '.' && !before.isEmpty then
    (String.ofList before, some (String.ofList after.reverse))
  else (name, none)

def extension? (s : String) : Option String := (fileName? s).bind (cutAtDot · |>.2)

def stem? (s : String) : Option String := (fileName? s).map (cutAtDot · |>.1)

end Path

end CodeAtlas
