import CodeAtlas.Json.Numeral
import CodeAtlas.Text.Hex

/-!
# JSON tokens

A lexer that takes one character at a time. Its state says which kind of token it is inside of, so
a run over a text is a fold, and the end of the text is one more step.
-/

namespace CodeAtlas.Json

inductive Token where
  | openArray | closeArray | openObject | closeObject | comma | colon
  | null | bool (b : Bool)
  /-- Nothing when the number is out of range. -/
  | number (n : Option Number)
  /-- Nothing when the text holds half of a surrogate pair. -/
  | string (s : Option String)
  deriving DecidableEq, Repr

namespace Token

/-- What a string literal has given so far. -/
structure Literal where
  /-- The characters, last one first. -/
  chars : List Char := []
  /-- The first half of a surrogate pair, if it was the last thing read. -/
  high : Option Nat := none
  /-- Whether every surrogate so far was one of a pair. -/
  paired : Bool := true

/-- Where the lexer stands. -/
inductive Mode where
  | between
  | numeral (chars : List Char)
  | word (chars : List Char)
  | inside (l : Literal)
  | escape (l : Literal)
  /-- Inside `\uXXXX`: the value of the digits so far and how many are missing. -/
  | hex (l : Literal) (value missing : Nat)

def Literal.push (l : Literal) (c : Char) : Literal :=
  { chars := c :: l.chars, high := none, paired := l.paired && l.high.isNone }

/-- Adds a UTF-16 unit. -/
def Literal.pushUnit (l : Literal) (u : Nat) : Literal :=
  if 0xD800 ≤ u && u < 0xDC00 then
    { l with high := some u, paired := l.paired && l.high.isNone }
  else if 0xDC00 ≤ u && u < 0xE000 then
    match l.high with
    | some h =>
      { l with chars := Char.ofNat (0x10000 + (h - 0xD800) * 0x400 + (u - 0xDC00)) :: l.chars
               high := none }
    | none => { l with paired := false }
  else l.push (Char.ofNat u)

def Literal.text (l : Literal) : Option String :=
  if l.paired && l.high.isNone then some (String.ofList l.chars.reverse) else none

/-- The character that a one-letter escape stands for. -/
def escaped : Char → Option Char
  | '"' => some '"'
  | '\\' => some '\\'
  | '/' => some '/'
  | 'b' => some '\x08'
  | 'f' => some '\x0c'
  | 'n' => some '\n'
  | 'r' => some '\r'
  | 't' => some '\t'
  | _ => none

def isNumeralChar (c : Char) : Bool :=
  c.isDigit || c == '-' || c == '+' || c == '.' || c == 'e' || c == 'E'

def isSpace (c : Char) : Bool := c == ' ' || c == '\n' || c == '\t' || c == '\r'

/-- The token of a run of letters, given last one first. -/
def ofWord (reversed : List Char) : Option Token :=
  let word := reversed.reverse
  if word == "null".toList then some .null
  else if word == "true".toList then some (.bool true)
  else if word == "false".toList then some (.bool false)
  else none

/-- The token of a run of numeral characters, given last one first. -/
def ofNumeral (reversed : List Char) : Option Token :=
  (Numeral.Parts.ofChars? reversed.reverse).map (.number ·.number)

/-- A character outside every longer token. -/
def start (c : Char) : Option (List Token × Mode) :=
  if isSpace c then some ([], .between)
  else if c == '"' then some ([], .inside {})
  else if c.isDigit || c == '-' then some ([], .numeral [c])
  else if c.isLower then some ([], .word [c])
  else match c with
    | '[' => some ([.openArray], .between)
    | ']' => some ([.closeArray], .between)
    | '\x7b' => some ([.openObject], .between)
    | '\x7d' => some ([.closeObject], .between)
    | ',' => some ([.comma], .between)
    | ':' => some ([.colon], .between)
    | _ => none

/-- One character: the tokens that it completes, and where the lexer stands after it. -/
def step : Mode → Char → Option (List Token × Mode)
  | .between, c => start c
  | .numeral cs, c =>
    if isNumeralChar c then some ([], .numeral (c :: cs))
    else do
      let token ← ofNumeral cs
      let (tokens, mode) ← start c
      return (token :: tokens, mode)
  | .word cs, c =>
    if c.isLower then some ([], .word (c :: cs))
    else do
      let token ← ofWord cs
      let (tokens, mode) ← start c
      return (token :: tokens, mode)
  | .inside l, c =>
    if c == '"' then some ([.string l.text], .between)
    else if c == '\\' then some ([], .escape l)
    else if c.toNat < 0x20 then none
    else some ([], .inside (l.push c))
  | .escape l, c =>
    if c == 'u' then some ([], .hex l 0 4)
    else (escaped c).map fun e => ([], .inside (l.push e))
  | .hex l value missing, c => do
    let value := value * 16 + (← Text.hexValue? c)
    return ([], if missing ≤ 1 then .inside (l.pushUnit value) else .hex l value (missing - 1))

/-- What the end of the text completes. -/
def finish : Mode → Option (List Token)
  | .between => some []
  | .numeral cs => (ofNumeral cs).map ([·])
  | .word cs => (ofWord cs).map ([·])
  | _ => none

/-- The tokens of a text from a given mode on, after `done`, which holds the tokens so far with the
last one first. -/
def scanFrom (mode : Mode) (done : List Token) : List Char → Option (List Token)
  | [] => (finish mode).map (done.reverse ++ ·)
  | c :: cs =>
    match step mode c with
    | some (tokens, next) => scanFrom next (tokens.reverse ++ done) cs
    | none => none

def scan (cs : List Char) : Option (List Token) := scanFrom .between [] cs

end Token

end CodeAtlas.Json
