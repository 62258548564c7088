/-!
# Search patterns

Patterns that match a whole text: `%` stands for any characters, `_` for one character, and a backslash
takes the next character as it is. ASCII letters are compared without their case. Patterns and texts
end at their first zero character, and the noncharacters U+FFFE and U+FFFF are read as U+FFFD.
-/

namespace CodeAtlas.Like

inductive Token where
  | literal (c : Char)
  /-- One character. -/
  | one
  /-- Any number of characters. -/
  | run
  /-- A backslash at the end, which nothing matches. -/
  | dangling
  deriving DecidableEq, Repr

/-! ### Reading -/

def readChar (c : Char) : Char :=
  if c.toNat == 0xFFFE || c.toNat == 0xFFFF then Char.ofNat 0xFFFD else c

/-- The characters of a text as they are compared. -/
def charsOf (s : String) : List Char := (s.toList.takeWhile (· != '\x00')).map readChar

def tokens : List Char → List Token
  | [] => []
  | '\\' :: [] => [.dangling]
  | '\\' :: c :: rest => .literal c :: tokens rest
  | '%' :: rest => .run :: tokens rest
  | '_' :: rest => .one :: tokens rest
  | c :: rest => .literal c :: tokens rest

/-! ### Matching -/

/-- Whether a test holds of some end of a text. -/
def anyEnd (test : List Char → Bool) : List Char → Bool
  | [] => test []
  | c :: rest => test (c :: rest) || anyEnd test rest

def accepts : List Token → List Char → Bool
  | [], text => text.isEmpty
  | .literal c :: pattern, d :: text => c.toLower == d.toLower && accepts pattern text
  | .one :: pattern, _ :: text => accepts pattern text
  | .run :: pattern, text => anyEnd (accepts pattern) text
  | _, _ => false

def «matches» (pattern text : String) : Bool := accepts (tokens (charsOf pattern)) (charsOf text)

/-- The length of the longest pattern, in bytes. -/
def maxBytes : Nat := 50000

/-! ### Writing -/

/-- A character with a backslash before it if it would not stand for itself. -/
def escapeChar (c : Char) : List Char :=
  if c == '\\' || c == '%' || c == '_' then ['\\', c] else [c]

def escape (s : String) : String := String.ofList (s.toList.flatMap escapeChar)

/-- The pattern for the texts that have a given text somewhere in them. -/
def containing (s : String) : String := "%" ++ escape s ++ "%"

end CodeAtlas.Like
