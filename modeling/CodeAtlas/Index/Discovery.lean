import CodeAtlas.Disk
import CodeAtlas.Language
import CodeAtlas.Pattern.Ignore

/-!
# Discovery

The files below a directory that a sweep indexes. A sweep passes over entries whose names start with
a dot, over what the ignore files of the directories around an entry say, and over what the filter
of its root says. Rules of a nearer directory come before those of one further up, and `.ignore`
comes before `.gitignore`, which counts inside a repository only.
-/

namespace CodeAtlas

/-! ### The filter of a sweep's root -/

/-- What no sweep enters or indexes: what is built or downloaded, and generated sources. -/
def builtInExcludes : List String :=
  ["target/", "node_modules/", "venv/", ".venv/", "vendor/", "dist/", "build/", "out/",
    "coverage/", "__pycache__/", ".git/", ".codegraph/", ".vscode/", ".idea/",
    "*.min.js", "*.bundle.js", "*.d.ts.map"]

/-- The rules of a root, the last match of which decides: those of its ignore files, the built-in
ones, and those given from outside. -/
structure IgnoreFilter where
  root : Path
  rules : List Ignore.Rule

/-- The rules of a file of a directory, if there is one. -/
def ignoreFile (entries : List (String × Node)) (name : String) : List Ignore.Rule :=
  match entries.lookup name with
  | some (.file content) => Ignore.rulesOfFile content
  | _ => []

namespace IgnoreFilter

def make (disk : Disk) (root : Path) (excludes : List String) : IgnoreFilter :=
  let entries := match disk.find? root with
    | some node => node.entries
    | none => []
  { root
    rules := ignoreFile entries ".gitignore" ++ ignoreFile entries ".ignore"
      ++ builtInExcludes.filterMap Ignore.Rule.ofString?
      ++ excludes.filterMap Ignore.Rule.ofString? }

/-- Whether the filter turns a path below its root away. The nearest directory with a verdict
decides, starting from the path itself. -/
def ignores (f : IgnoreFilter) (p : Path) (isDirectory : Bool) : Bool :=
  let below := p.components.drop f.root.components.length
  Ignore.verdictUp f.rules isDirectory below.reverse == .ignore

end IgnoreFilter

/-! ### The rules of directories -/

/-- What the ignore files of one directory contribute. -/
structure Scope where
  /-- How many components the path of the directory has. -/
  level : Nat
  ignoreRules : List Ignore.Rule
  gitRules : List Ignore.Rule
  excludeRules : List Ignore.Rule
  isRepository : Bool

namespace Scope

def ofDirectory (level : Nat) (entries : List (String × Node)) : Scope :=
  let info := (entries.lookup ".git").bind (·.find? ["info"])
  { level
    ignoreRules := ignoreFile entries ".ignore"
    gitRules := ignoreFile entries ".gitignore"
    excludeRules := match info with
      | some node => ignoreFile node.entries "exclude"
      | none => []
    isRepository := (entries.lookup ".git").isSome }

/-- The scopes of a directory and of those above it, nearest first. -/
def above (root : Node) (components : List String) : List Scope :=
  ((List.range (components.length + 1)).map fun level =>
    ofDirectory level (match root.find? (components.take level) with
      | some node => node.entries
      | none => [])).reverse

/-- The scopes up to the nearest repository and that one with them. -/
def withinRepository : List Scope → List Scope
  | [] => []
  | s :: rest => if s.isRepository then [s] else s :: withinRepository rest

/-- The first verdict of one kind of rules, nearest scope first. -/
def firstVerdict (rules : Scope → List Ignore.Rule) (path : List String) (isDirectory : Bool) :
    List Scope → Ignore.Verdict
  | [] => .none
  | s :: rest =>
    (Ignore.verdict (rules s) (Ignore.pathOf (path.drop s.level)) isDirectory).orElse
      (firstVerdict rules path isDirectory rest)

/-- What the scopes say about a path. -/
def verdict (scopes : List Scope) (path : List String) (isDirectory : Bool) : Ignore.Verdict :=
  let repository := if scopes.any (·.isRepository) then withinRepository scopes else []
  ((firstVerdict ignoreRules path isDirectory scopes).orElse
    (firstVerdict gitRules path isDirectory repository)).orElse
    (firstVerdict excludeRules path isDirectory repository)

end Scope

/-! ### The walk -/

def isHidden (name : String) : Bool := name.toList.head? == some '.'

/-- Whether a walk takes an entry. -/
def admits (filter : IgnoreFilter) (scopes : List Scope) (path : List String) (name : String)
    (isDirectory : Bool) : Bool :=
  let path := path ++ [name]
  (match Scope.verdict scopes path isDirectory with
    | .ignore => false
    | .keep => true
    | .none => !isHidden name)
  && !filter.ignores ⟨path⟩ isDirectory

mutual

/-- The files at and below an entry of a directory. -/
def walkEntry (filter : IgnoreFilter) (scopes : List Scope) (path : List String) (name : String) :
    Node → List Path
  | .file _ => if admits filter scopes path name false then [⟨path ++ [name]⟩] else []
  | .directory entries =>
    if admits filter scopes path name true then
      walkEntries filter (Scope.ofDirectory (path.length + 1) entries :: scopes) (path ++ [name])
        entries
    else []

def walkEntries (filter : IgnoreFilter) (scopes : List Scope) (path : List String) :
    List (String × Node) → List Path
  | [] => []
  | (name, node) :: rest =>
    walkEntry filter scopes path name node ++ walkEntries filter scopes path rest

end

/-- The files of a walk. A root that is a file is taken as it is. -/
def walk (disk : Disk) (filter : IgnoreFilter) (root : Path) : List Path :=
  match disk.find? root with
  | none => []
  | some (.file _) => [root]
  | some (.directory entries) =>
    walkEntries filter (Scope.above disk.root root.components) root.components entries

/-- The files below a root that a sweep indexes: those of a known language. -/
def discover (disk : Disk) (root : Path) (excludes : List String) : List Path :=
  (walk disk (.make disk root excludes) root).filter fun p => (Language.detect p.text).isSome

end CodeAtlas
