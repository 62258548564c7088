import CodeAtlas.Json.Basic
import CodeAtlas.Number.Text
import CodeAtlas.Text.Hex

/-!
# Writing JSON

The compact form without blanks, and the indented form with two spaces a level.
-/

namespace CodeAtlas.Json

/-- A character as it is written between quotes. Only the quote, the backslash and the control
characters below the blank are escaped. -/
def escapeChar (c : Char) : List Char :=
  match c with
  | '"' => ['\\', '"']
  | '\\' => ['\\', '\\']
  | '\x08' => ['\\', 'b']
  | '\x0c' => ['\\', 'f']
  | '\n' => ['\\', 'n']
  | '\r' => ['\\', 'r']
  | '\t' => ['\\', 't']
  | c =>
    if c.toNat < 0x20 then ['\\', 'u', '0', '0'] ++ Text.hexPair c.toNat else [c]

def quote (s : String) : List Char :=
  '"' :: (s.toList.flatMap escapeChar ++ ['"'])

def Number.text : Number → List Char
  | .integer n => if n < 0 then '-' :: Decimal.digitChars n.natAbs else Decimal.digitChars n.natAbs
  | .float x => Decimal.text x

/-- What stands between the items of a container, and around them. -/
structure Layout where
  /-- After the opening bracket and after each comma, at the given level. -/
  line : Nat → List Char
  /-- After the colon of a member. -/
  gap : List Char

def Layout.compact : Layout := ⟨fun _ => [], []⟩

def Layout.indented : Layout := ⟨fun level => '\n' :: List.replicate (2 * level) ' ', [' ']⟩

mutual

/-- The text of a value at a level of nesting. Empty containers have nothing between their
brackets. -/
def write (l : Layout) (level : Nat) : Json → List Char
  | .null => ['n', 'u', 'l', 'l']
  | .bool true => ['t', 'r', 'u', 'e']
  | .bool false => ['f', 'a', 'l', 's', 'e']
  | .number n => n.text
  | .string s => quote s
  | .array [] => ['[', ']']
  | .array (v :: rest) =>
    '[' :: (l.line (level + 1) ++ write l (level + 1) v ++ writeItems l (level + 1) rest
      ++ l.line level ++ [']'])
  | .object [] => ['\x7b', '\x7d']
  | .object ((k, v) :: rest) =>
    '\x7b' :: (l.line (level + 1) ++ quote k ++ ':' :: (l.gap ++ write l (level + 1) v)
      ++ writeMembers l (level + 1) rest ++ l.line level ++ ['\x7d'])
  | .unreadable => ['n', 'u', 'l', 'l']

def writeItems (l : Layout) (level : Nat) : List Json → List Char
  | [] => []
  | v :: rest => ',' :: (l.line level ++ write l level v ++ writeItems l level rest)

def writeMembers (l : Layout) (level : Nat) : List (String × Json) → List Char
  | [] => []
  | (k, v) :: rest =>
    ',' :: (l.line level ++ quote k ++ ':' :: (l.gap ++ write l level v)
      ++ writeMembers l level rest)

end

def compact (v : Json) : String := String.ofList (v.write .compact 0)

def indented (v : Json) : String := String.ofList (v.write .indented 0)

end CodeAtlas.Json
