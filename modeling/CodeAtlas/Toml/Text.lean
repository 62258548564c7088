import CodeAtlas.Text.Hex

/-!
# TOML strings

The four kinds of string literals: basic and literal ones, on one line or on several. Each kind is
read by a function from the text after its opening quotes to its content and what follows it.
-/

namespace CodeAtlas.Toml.Text

def isSpace (c : Char) : Bool := c == ' ' || c == '\t'

/-- A character that may stand in a string or a comment as it is: a tab, or no control character. -/
def isPlain (c : Char) : Bool := c == '\t' || (0x20 ≤ c.toNat && c.toNat != 0x7F)

/-- The character of a number in hexadecimal digits, which must be a Unicode scalar value. -/
def scalar? (digits : List Char) : Option Char := do
  let n ← CodeAtlas.Text.hexNumber? digits
  if h : n.isValidChar then some (Char.ofNatAux n h) else none

/-- The character of a one-letter escape. -/
def escaped : Char → Option Char
  | 'b' => some '\x08'
  | 't' => some '\t'
  | 'n' => some '\n'
  | 'f' => some '\x0c'
  | 'r' => some '\r'
  | '"' => some '"'
  | '\\' => some '\\'
  | _ => none

/-- What a literal has given so far, last character first. -/
abbrev Reversed := List Char

def text (r : Reversed) : String := String.ofList r.reverse

/-- A basic string on one line. -/
def basic (done : Reversed) : List Char → Option (String × List Char)
  | '"' :: rest => some (text done, rest)
  | '\\' :: 'u' :: a :: b :: c :: d :: rest =>
    match scalar? [a, b, c, d] with
    | some x => basic (x :: done) rest
    | none => none
  | '\\' :: 'U' :: a :: b :: c :: d :: e :: f :: g :: h :: rest =>
    match scalar? [a, b, c, d, e, f, g, h] with
    | some x => basic (x :: done) rest
    | none => none
  | '\\' :: c :: rest =>
    match escaped c with
    | some x => basic (x :: done) rest
    | none => none
  | c :: rest => if isPlain c && c != '\\' then basic (c :: done) rest else none
  | [] => none

/-- A literal string on one line. -/
def literal (done : Reversed) : List Char → Option (String × List Char)
  | '\'' :: rest => some (text done, rest)
  | c :: rest => if isPlain c then literal (c :: done) rest else none
  | [] => none

/-- Whether a line ends here, spaces aside. -/
def endsLine (cs : List Char) : Bool :=
  match cs.dropWhile isSpace with
  | '\n' :: _ => true
  | '\r' :: '\n' :: _ => true
  | _ => false

/-- A basic string on several lines. Up to two quotes may stand before the closing ones. After a
backslash at the end of a line everything blank is passed over. -/
def multiBasic (blank : Bool) (done : Reversed) : List Char → Option (String × List Char)
  | '"' :: '"' :: '"' :: '"' :: '"' :: rest => some (text ('"' :: '"' :: done), rest)
  | '"' :: '"' :: '"' :: '"' :: rest => some (text ('"' :: done), rest)
  | '"' :: '"' :: '"' :: rest => some (text done, rest)
  | '\r' :: '\n' :: rest => multiBasic blank (if blank then done else '\n' :: done) rest
  | '\\' :: 'u' :: a :: b :: c :: d :: rest =>
    match scalar? [a, b, c, d] with
    | some x => multiBasic false (x :: done) rest
    | none => none
  | '\\' :: 'U' :: a :: b :: c :: d :: e :: f :: g :: h :: rest =>
    match scalar? [a, b, c, d, e, f, g, h] with
    | some x => multiBasic false (x :: done) rest
    | none => none
  | '\\' :: c :: rest =>
    match escaped c with
    | some x => multiBasic false (x :: done) rest
    | none => if endsLine (c :: rest) then multiBasic true done (c :: rest) else none
  | c :: rest =>
    if blank && (isSpace c || c == '\n') then multiBasic true done rest
    else if (isPlain c || c == '\n') && c != '\\' then multiBasic false (c :: done) rest
    else none
  | [] => none

/-- A literal string on several lines. Up to two quotes may stand before the closing ones. -/
def multiLiteral (done : Reversed) : List Char → Option (String × List Char)
  | '\'' :: '\'' :: '\'' :: '\'' :: '\'' :: rest => some (text ('\'' :: '\'' :: done), rest)
  | '\'' :: '\'' :: '\'' :: '\'' :: rest => some (text ('\'' :: done), rest)
  | '\'' :: '\'' :: '\'' :: rest => some (text done, rest)
  | '\r' :: '\n' :: rest => multiLiteral ('\n' :: done) rest
  | c :: rest => if isPlain c || c == '\n' then multiLiteral (c :: done) rest else none
  | [] => none

/-- What follows a line end right after the opening quotes of several lines. -/
def afterLineEnd : List Char → List Char
  | '\n' :: rest => rest
  | '\r' :: '\n' :: rest => rest
  | cs => cs

/-- A string literal of any kind, from its opening quotes on. -/
def read : List Char → Option (String × List Char)
  | '"' :: '"' :: '"' :: rest => multiBasic false [] (afterLineEnd rest)
  | '"' :: rest => basic [] rest
  | '\'' :: '\'' :: '\'' :: rest => multiLiteral [] (afterLineEnd rest)
  | '\'' :: rest => literal [] rest
  | _ => none

/-! ### Writing -/

/-- What decides on the kind of literal for a text. -/
structure Traits where
  /-- The longest runs of quotes. -/
  doubles : Nat := 0
  singles : Nat := 0
  backslash : Bool := false
  newline : Bool := false
  /-- A control character other than a tab or a line feed. -/
  control : Bool := false
  deriving DecidableEq, Repr

/-- The length of the longest run of a character; `run` counts the run that reaches the start. -/
def longestRun (c : Char) (run : Nat) : List Char → Nat
  | [] => run
  | d :: rest => if d = c then longestRun c (run + 1) rest else max run (longestRun c 0 rest)

def isControl (c : Char) : Bool :=
  c != '\t' && c != '\n' && (c.toNat < 0x20 || c.toNat == 0x7F)

def Traits.of (cs : List Char) : Traits where
  doubles := longestRun '"' 0 cs
  singles := longestRun '\'' 0 cs
  backslash := cs.contains '\\'
  newline := cs.contains '\n'
  control := cs.any isControl

inductive Kind where
  | basic | literal | multiBasic | multiLiteral
  deriving DecidableEq, Repr

/-- The first kind in which the text needs no escape but that of a tab, or else a basic one. -/
def kindFor (t : Traits) : Kind :=
  if !t.control && !t.backslash && t.doubles == 0 && !t.newline then .basic
  else if !t.control && t.singles == 0 && !t.newline then .literal
  else if !t.control && !t.backslash && t.doubles ≤ 2 then .multiBasic
  else if !t.control && t.singles ≤ 2 then .multiLiteral
  else if t.newline then .multiBasic
  else .basic

/-- A character of a basic string, without regard to quotes and line feeds. -/
def escape (c : Char) : List Char :=
  match c with
  | '\x08' => ['\\', 'b']
  | '\t' => ['\\', 't']
  | '\x0c' => ['\\', 'f']
  | '\r' => ['\\', 'r']
  | '\\' => ['\\', '\\']
  | c =>
    if c.toNat < 0x20 || c.toNat == 0x7F then
      ['\\', 'u', '0', '0'] ++ (CodeAtlas.Text.hexPair c.toNat).map Char.toUpper
    else [c]

def writeBasic : List Char → List Char
  | [] => []
  | '"' :: rest => '\\' :: '"' :: writeBasic rest
  | '\n' :: rest => '\\' :: 'n' :: writeBasic rest
  | c :: rest => escape c ++ writeBasic rest

/-- A text of several lines; `quotes` counts the quotes just written. The third of them is escaped,
and an escape starts the count anew. -/
def writeMultiBasic (quotes : Nat) : List Char → List Char
  | [] => []
  | '"' :: rest =>
    if 2 ≤ quotes then '\\' :: '"' :: writeMultiBasic 0 rest
    else '"' :: writeMultiBasic (quotes + 1) rest
  | '\n' :: rest => '\n' :: writeMultiBasic 0 rest
  | c :: rest => escape c ++ writeMultiBasic 0 rest

/-- The literal of a text. A literal of several lines opens with a line end if the text has one. -/
def write (s : String) : List Char :=
  let cs := s.toList
  let traits := Traits.of cs
  let opening := if traits.newline then ['\n'] else []
  match kindFor traits with
  | .basic => '"' :: (writeBasic cs ++ ['"'])
  | .literal => '\'' :: (cs ++ ['\''])
  | .multiBasic =>
    ['"', '"', '"'] ++ opening ++ writeMultiBasic 0 cs ++ ['"', '"', '"']
  | .multiLiteral => ['\'', '\'', '\''] ++ opening ++ cs ++ ['\'', '\'', '\'']

end CodeAtlas.Toml.Text
