import CodeAtlas.Path

/-!
# Disks

A tree of directories and files, and the way from a path text to a node of it. Unlike the lexical
reading of a path, this one needs every directory on the way to exist, also one that `..` leaves at
once.
-/

namespace CodeAtlas

/-- A node of a file tree. The names in a directory are distinct. -/
inductive Node where
  | file (content : ByteArray)
  | directory (entries : List (String × Node))

/-- Why a file cannot be read. -/
inductive FileFault where
  | missing
  | notDirectory
  | isDirectory
  | nameTooLong
  | zeroByte
  | notText
  deriving DecidableEq, Repr

def FileFault.message : FileFault → String
  | .missing => "No such file or directory (os error 2)"
  | .notDirectory => "Not a directory (os error 20)"
  | .isDirectory => "Is a directory (os error 21)"
  | .nameTooLong => "File name too long (os error 36)"
  | .zeroByte => "file name contained an unexpected NUL byte"
  | .notText => "stream did not contain valid UTF-8"

namespace Node

def isDirectory : Node → Bool
  | .directory _ => true
  | .file _ => false

def entries : Node → List (String × Node)
  | .directory es => es
  | .file _ => []

def child? (n : Node) (name : String) : Option Node := n.entries.lookup name

/-- The node at the end of some components. -/
def find? (n : Node) : List String → Option Node
  | [] => some n
  | name :: rest => (n.child? name).bind (find? · rest)

/-- Puts an entry into a list in the order of names, in place of the one that was there. -/
def setEntry (name : String) (node : Node) : List (String × Node) → List (String × Node)
  | [] => [(name, node)]
  | (k, v) :: rest =>
    if name = k then (name, node) :: rest
    else if name < k then (name, node) :: (k, v) :: rest
    else (k, v) :: setEntry name node rest

/-- Puts a node at the end of some components, and directories where there are none on the way.
Nothing comes back when a file is in the way. -/
def put? (node : Node) : List String → Node → Option Node
  | [], _ => some node
  | _ :: _, .file _ => none
  | name :: rest, .directory es => do
    let below ← put? node rest ((es.lookup name).getD (.directory []))
    return .directory (setEntry name below es)

/-- Takes away the node at the end of some components. -/
def remove : List String → Node → Node
  | [], n => n
  | _, .file content => .file content
  | [name], .directory es => .directory (es.filter (·.1 != name))
  | name :: rest, .directory es =>
    match es.lookup name with
    | some below => .directory (setEntry name (remove rest below) es)
    | none => .directory es

end Node

/-- A file tree, and the directory from which relative paths are read. -/
structure Disk where
  root : Node
  base : Path

namespace Disk

/-- The node at a normalized path. -/
def find? (d : Disk) (p : Path) : Option Node := d.root.find? p.components

/-- The longest component and the longest path, in bytes. -/
def maxName : Nat := 255
def maxPath : Nat := 4095

/-- One step on the way to a node: the directory reached so far, given by its components, and the
next component. -/
def step (d : Disk) (here : List String) (name : String) : Except FileFault (List String) :=
  match d.root.find? here with
  | some (.directory es) =>
    if name = "" ∨ name = "." then .ok here
    else if name = ".." then .ok here.dropLast
    else if maxName < name.utf8ByteSize then .error .nameTooLong
    else if (es.lookup name).isSome then .ok (here ++ [name])
    else .error .missing
  | _ => .error .notDirectory

/-- The components at which a path text ends. -/
def locate (d : Disk) (s : String) : Except FileFault (List String) :=
  if s.toList.contains '\x00' then .error .zeroByte
  else if s = "" then .error .missing
  else if maxPath < s.utf8ByteSize then .error .nameTooLong
  else
    ((Path.split s).map String.ofList).foldlM d.step
      (if Path.isAbsolute s then [] else d.base.components)

def read (d : Disk) (s : String) : Except FileFault ByteArray := do
  match d.root.find? (← d.locate s) with
  | some (.file content) => .ok content
  | some (.directory _) => .error .isDirectory
  | none => .error .missing

def readText (d : Disk) (s : String) : Except FileFault String := do
  match String.fromUTF8? (← d.read s) with
  | some text => .ok text
  | none => .error .notText

/-- Whether there is anything at a path. -/
def isPresent (d : Disk) (s : String) : Bool :=
  match d.locate s with
  | .ok _ => true
  | .error _ => false

/-- Puts a file at a normalized path, and directories where there are none on the way. -/
def put? (d : Disk) (p : Path) (node : Node) : Option Disk :=
  (Node.put? node p.components d.root).map fun root => { d with root }

def remove (d : Disk) (p : Path) : Disk := { d with root := d.root.remove p.components }

/-- The directory of a path text and the name in it, both there to write a file to. A text that ends
in a slash names no file. -/
def target? (d : Disk) (s : String) : Option (List String × String) := do
  let parts := (Path.split s).map String.ofList
  let name ← parts.getLast?
  let isName := name != "" && name != "." && name != ".." && name.utf8ByteSize ≤ maxName
  if !isName || s.toList.contains '\x00' || maxPath < s.utf8ByteSize then none
  else
    let start := if Path.isAbsolute s then [] else d.base.components
    let here ← (parts.dropLast.foldlM d.step start).toOption
    match d.root.find? here with
    | some (.directory _) => some (here, name)
    | _ => none

/-- Writes a file whose directory exists. -/
def write? (d : Disk) (s : String) (content : ByteArray) : Option Disk := do
  let (here, name) ← d.target? s
  match d.root.find? (here ++ [name]) with
  | some (.directory _) => none
  | _ => d.put? ⟨here ++ [name]⟩ (.file content)

/-- One step on the way to a directory, which is made where there is nothing yet. -/
def enterOrMake (here : Disk × List String) (name : String) : Option (Disk × List String) :=
  let (d, path) := here
  match d.step path name with
  | .ok path => some (d, path)
  | .error .missing => (d.put? ⟨path ++ [name]⟩ (.directory [])).map fun d => (d, path ++ [name])
  | .error _ => none

/-- Makes a directory and those on the way to it that are missing. -/
def makeDirectories? (d : Disk) (s : String) : Option Disk := do
  let start := if Path.isAbsolute s then [] else d.base.components
  let (d, path) ← ((Path.split s).map String.ofList).foldlM enterOrMake (d, start)
  match d.root.find? path with
  | some (.directory _) => some d
  | _ => none

end Disk

end CodeAtlas
