/-!
# Globs of ignore files

Globs that match a relative path byte by byte. `*` and `?` never match a slash, `**` as a whole
component stands for any number of components, `[a-z]` for one byte of a class, `{a,b}` for one of
several alternatives, and a backslash takes the next character as it is. A class that is never
closed is a plain bracket, and from then on every bracket is.
-/

namespace CodeAtlas.Glob

abbrev Bytes := List UInt8

def bytesOf (s : String) : Bytes := s.toUTF8.toList

def slash : UInt8 := 47

inductive Token where
  | literal (c : Char)
  /-- One byte that is no slash. -/
  | any
  /-- Bytes that are no slashes. -/
  | run
  /-- `**` in front: nothing, or components with a slash after them. -/
  | leading
  /-- `**` at the end: a slash and anything. -/
  | trailing
  /-- `**` between slashes: one slash, or two with anything between. -/
  | between
  | class (negated : Bool) (ranges : List (Char × Char))
  /-- One of several branches; without branches, nothing. -/
  | alternatives (branches : List (List Token))

/-- A token that stands for nothing. -/
def Token.isVoid : Token → Bool
  | .alternatives [] => true
  | _ => false

/-! ### Reading a glob -/

/-- A glob that is partly read. -/
structure Reader where
  /-- Finished branches of the innermost open alternatives and the branch being read, for each level
  of nesting; every branch has its last token first. -/
  branch : List Token
  siblings : List (List Token)
  /-- The levels around the innermost one. -/
  outer : List (List Token × List (List Token))
  previous : Option Char
  /-- Whether a class was left open before, so that brackets are plain. -/
  plainBrackets : Bool

def Reader.initial : Reader := ⟨[], [], [], none, false⟩

def Reader.push (r : Reader) (t : Token) : Reader := { r with branch := t :: r.branch }

def isSlash : Option Char → Bool
  | some c => c == '/'
  | none => false

/-- The ranges of a class, last one first, and whether the last one waits for its end. -/
structure ClassReader where
  ranges : List (Char × Char) := []
  open_ : Bool := false

/-- A class after its bracket and its negation. Nothing comes back when it is never closed; a range
whose end is before its start is an error. -/
def classFrom (first : Bool) (k : ClassReader) :
    List Char → Except Unit (Option (List (Char × Char) × List Char))
  | [] => .ok none
  | c :: rest =>
    let extend (k : ClassReader) (c : Char) : Except Unit ClassReader :=
      match k.ranges with
      | (a, _) :: more => if c < a then .error () else .ok ⟨(a, c) :: more, false⟩
      | [] => .ok ⟨[(c, c)], false⟩
    if first then classFrom false ⟨[(c, c)], false⟩ rest
    else if c == ']' then
      .ok (some ((if k.open_ then ('-', '-') :: k.ranges else k.ranges).reverse, rest))
    else if k.open_ then do
      let k ← extend k c
      classFrom false k rest
    else if c == '-' then classFrom false { k with open_ := true } rest
    else classFrom false ⟨(c, c) :: k.ranges, false⟩ rest

/-- A class after its opening bracket. -/
def class? (cs : List Char) : Except Unit (Option (Token × List Char)) :=
  let (negated, body) := match cs with
    | '!' :: rest => (true, rest)
    | '^' :: rest => (true, rest)
    | _ => (false, cs)
  match classFrom true {} body with
  | .ok (some (ranges, rest)) => .ok (some (.class negated ranges, rest))
  | .ok none => .ok none
  | .error () => .error ()

/-- Two stars that are no component of their own match like two single ones. -/
def Reader.pushRuns (r : Reader) : Reader := (r.push .run).push .run

/-- Puts `**` in place of the token of the slash before it. -/
def Reader.replaceSlash (r : Reader) (atEnd : Bool) : Reader :=
  match r.branch with
  | .leading :: _ => r
  | .trailing :: _ => r
  | _ :: rest => { r with branch := (if atEnd then .trailing else .between) :: rest }
  | [] => r

/-- Two stars, whose first one came after `before`. Gives the reader and what is left to read. -/
def Reader.twoStars (r : Reader) (before : Option Char) (rest : List Char) : Reader × List Char :=
  if r.branch.isEmpty then
    match rest with
    | [] => (r.push .leading, [])
    | c :: more => if c == '/' then ({ r with previous := some '/' }.push .leading, more)
      else (r.pushRuns, rest)
  else if !isSlash before && (r.outer.isEmpty || (before != some ',' && before != some '\x7b')) then
    (r.pushRuns, rest)
  else
    match rest with
    | [] => (r.replaceSlash true, [])
    | c :: more =>
      if (c == ',' || c == '\x7d') && !r.outer.isEmpty then (r.replaceSlash true, rest)
      else if c == '/' then ({ r with previous := some '/' }.replaceSlash false, more)
      else (r.pushRuns, rest)

/-- Reads on from a point of a glob. The first argument bounds the number of steps; each one takes
at least one character. -/
def read : Nat → Reader → List Char → Option (List Token)
  | _, r, [] => if r.outer.isEmpty then some r.branch.reverse else none
  | 0, _, _ :: _ => none
  | fuel + 1, r, c :: rest =>
    let before := r.previous
    let r := { r with previous := some c }
    match c with
    | '?' => read fuel (r.push .any) rest
    | '*' =>
      match rest with
      | '*' :: more =>
        let (r, more) := r.twoStars before more
        read fuel r more
      | _ => read fuel (r.push .run) rest
    | '[' =>
      if r.plainBrackets then read fuel (r.push (.literal c)) rest
      else
        match class? rest with
        | .ok (some (token, more)) => read fuel ({ r with previous := some ']' }.push token) more
        | .ok none => read fuel ({ r with plainBrackets := true }.push (.literal c)) rest
        | .error () => none
    | '\x7b' =>
      read fuel { r with branch := [], siblings := [], outer := (r.branch, r.siblings) :: r.outer }
        rest
    | '\x7d' =>
      -- Empty branches are dropped.
      match r.outer with
      | (branch, siblings) :: outer =>
        let branches := (r.branch.reverse :: r.siblings).reverse.filter fun b => !b.all Token.isVoid
        read fuel ({ r with branch, siblings, outer }.push (.alternatives branches)) rest
      | [] => none
    | ',' =>
      if r.outer.isEmpty then read fuel (r.push (.literal c)) rest
      else read fuel { r with branch := [], siblings := r.branch.reverse :: r.siblings } rest
    | '\\' =>
      match rest with
      | d :: more => read fuel ({ r with previous := some d }.push (.literal d)) more
      | [] => none
    | c => read fuel (r.push (.literal c)) rest

/-- The tokens of a glob, unless it is invalid. -/
def ofChars? (cs : List Char) : Option (List Token) := read cs.length .initial cs

/-! ### Matching -/

/-- A class as a set of bytes: a character beyond ASCII stands for its bytes one by one, and a range
for the bytes from the last one of its start to the first one of its end. -/
def byteRanges (ranges : List (Char × Char)) : List (UInt8 × UInt8) :=
  ranges.flatMap fun (a, b) =>
    let bytes (c : Char) : Bytes := bytesOf c.toString
    if a == b then (bytes a).map fun x => (x, x)
    else
      ((bytes a).dropLast.map fun x => (x, x))
        ++ [((bytes a).getLastD 0, (bytes b).headD 0)]
        ++ ((bytes b).tail.map fun x => (x, x))

/-- The ends of a path, itself first. -/
def ends : Bytes → List Bytes
  | [] => [[]]
  | b :: rest => (b :: rest) :: ends rest

/-- What may be left of a path after a run of bytes that are no slashes. -/
def endsInComponent : Bytes → List Bytes
  | [] => [[]]
  | b :: rest => (b :: rest) :: if b == slash then [] else endsInComponent rest

/-- What may be left of a path after a slash. -/
def endsAfterSlash : Bytes → List Bytes
  | [] => []
  | b :: rest => if b == slash then rest :: endsAfterSlash rest else endsAfterSlash rest

/-- The ends of one path, each one once. -/
def once (paths : List Bytes) : List Bytes :=
  paths.foldl (fun kept p => if kept.any (·.length == p.length) then kept else kept ++ [p]) []

mutual

/-- What may be left of a path after a token, for any of several ends of the path. -/
def Token.after (paths : List Bytes) : Token → List Bytes
  | .literal c =>
    let bytes := bytesOf c.toString
    paths.filterMap fun p => if bytes.isPrefixOf p then some (p.drop bytes.length) else none
  | .any => paths.filterMap fun
    | b :: rest => if b == slash then none else some rest
    | [] => none
  | .run => once (paths.flatMap endsInComponent)
  | .leading => once (paths.flatMap fun p => p :: endsAfterSlash p)
  | .trailing => once (paths.flatMap fun
    | b :: rest => if b == slash then ends rest else []
    | [] => [])
  | .between => once (paths.flatMap fun
    | b :: rest => if b == slash then rest :: endsAfterSlash rest else []
    | [] => [])
  | .class negated ranges => paths.filterMap fun
    | b :: rest =>
      if (byteRanges ranges).any (fun (x, y) => x ≤ b && b ≤ y) != negated then some rest else none
    | [] => none
  | .alternatives [] => paths
  | .alternatives (branch :: rest) => once (afterAll paths branch ++ afterAny paths rest)

/-- What may be left after one of several branches. -/
def afterAny (paths : List Bytes) : List (List Token) → List Bytes
  | [] => []
  | branch :: rest => afterAll paths branch ++ afterAny paths rest

def afterAll (paths : List Bytes) : List Token → List Bytes
  | [] => paths
  | t :: rest => afterAll (t.after paths) rest

end

def Token.isLiteral : Token → Bool
  | .literal _ => true
  | _ => false

def Token.isChar (c : Char) : Token → Bool
  | .literal d => c == d
  | _ => false

/-- A glob that ends in a plain dot is looked up by the name of a file, or by its extension, and
such a name has neither. Only a glob that spells its path out, from the start or from a component
on, still matches. -/
def neverMatches (glob : List Token) : Bool :=
  match glob.getLast? with
  | some last =>
    last.isChar '.' &&
      match glob with
      | .leading :: rest => !(rest.all Token.isLiteral && rest.any (Token.isChar '/'))
      | _ => !glob.all Token.isLiteral
  | none => false

def «matches» (glob : List Token) (path : Bytes) : Bool :=
  match glob with
  | [.leading] => true
  | _ => !neverMatches glob && (afterAll [path] glob).any List.isEmpty

end CodeAtlas.Glob
