/-!
# Patterns over whole paths

The patterns by which test files are told. `*` stands for any characters, the slash among them, `?`
for any one, `[ab]` and `[!ab]` for one of a class or outside of it, and `**`, which must be a whole
component, for any number of components. A pattern that breaks these rules is invalid.
-/

namespace CodeAtlas.PathMatch

inductive Specifier where
  | one (c : Char)
  | range (first last : Char)
  deriving DecidableEq, Repr

def Specifier.holds (c : Char) : Specifier → Bool
  | .one d => c == d
  | .range first last => first ≤ c && c ≤ last

inductive Token where
  | char (c : Char)
  | any
  | within (specifiers : List Specifier)
  | except (specifiers : List Specifier)
  /-- Any characters. -/
  | sequence
  /-- Any number of whole components. -/
  | components
  deriving DecidableEq, Repr

/-- The members of a class; `a-z` is a range. -/
def specifiers : List Char → List Specifier
  | first :: '-' :: last :: rest => .range first last :: specifiers rest
  | c :: rest => .one c :: specifiers rest
  | [] => []

/-- A class after its opening bracket: its token and what follows it. The first member may be the
closing bracket itself. -/
def class? (cs : List Char) : Option (Token × List Char) :=
  let body (cs : List Char) : Option (List Char × List Char) :=
    match cs with
    | [] => none
    | first :: rest =>
      let inner := rest.takeWhile (· != ']')
      match rest.drop inner.length with
      | _ :: after => some (first :: inner, after)
      | [] => none
  match cs with
  | '!' :: rest => (body rest).map fun (inner, after) => (.except (specifiers inner), after)
  | _ => (body cs).map fun (inner, after) => (.within (specifiers inner), after)

/-- The tokens of a pattern whose previous character is given. The first argument bounds the number
of steps; each one takes at least one character. -/
def tokens? : Nat → Option Char → List Char → Option (List Token)
  | _, _, [] => some []
  | 0, _, _ :: _ => none
  | fuel + 1, previous, c :: rest =>
    match c, rest with
    | '*', '*' :: rest =>
      if previous.all (· == '/') then
        match rest with
        | [] => some [.components]
        | '/' :: rest => (tokens? fuel (some '/') rest).map (.components :: ·)
        | _ :: _ => none
      else none
    | '*', rest => (tokens? fuel (some '*') rest).map (.sequence :: ·)
    | '?', rest => (tokens? fuel (some '?') rest).map (.any :: ·)
    | '[', rest => do
      let (token, after) ← class? rest
      return token :: (← tokens? fuel (some ']') after)
    | c, rest => (tokens? fuel (some c) rest).map (.char c :: ·)

/-- The pattern of a text, unless it is invalid. -/
def ofString? (s : String) : Option (List Token) :=
  tokens? s.toList.length none s.toList

/-- The token of one character, if there is one that it accepts. -/
def Token.accepts (c : Char) : Token → Bool
  | .char d => c == d
  | .any => true
  | .within specifiers => specifiers.any (·.holds c)
  | .except specifiers => !specifiers.any (·.holds c)
  | .sequence => false
  | .components => false

/-- From which places of a text a pattern matches the rest of it, given the same for the pattern
without its first token. Place `i` is before the `i`-th character, and there is one more place than
there are characters. -/
def places (text : List Char) (token : Token) (later : List Bool) : List Bool :=
  match token with
  | .sequence => later.foldr (fun here after => (here || after.headD false) :: after) []
  | .components =>
    let atEnd := later.getLastD false
    let fromSlash := (text.zip later.tail).foldr
      (fun (c, next) after => ((c == '/' && next) || after.headD false) :: after) [false]
    later.zipWith (fun here after => here || after || atEnd) fromSlash
  | token => text.zipWith (fun c next => token.accepts c && next) later.tail ++ [false]

/-- The place after the last character is the only one where the empty pattern matches. -/
def lastPlace (text : List Char) : List Bool := text.map (fun _ => false) ++ [true]

def «matches» (pattern : List Token) (text : String) : Bool :=
  let cs := text.toList
  (pattern.foldr (places cs) (lastPlace cs)).headD false

end CodeAtlas.PathMatch
