import CodeAtlas.Json.Token

/-!
# Reading JSON

A stack machine over the tokens of a text. The stack holds the arrays and objects that are open,
innermost first, so that a run is a structural recursion over the tokens.
-/

namespace CodeAtlas.Json

/-- An array or object that is open. -/
inductive Frame where
  /-- The items so far, last one first. -/
  | array (done : List Json)
  /-- The members so far, last one first, and the key whose value comes next. A key that is no text
  makes the whole object unreadable. -/
  | object (done : List (Option String × Json)) (key : Option String)

/-- What may come next. -/
inductive Expect where
  | value
  /-- A value, or the end of an array that was just opened. -/
  | valueOrClose
  | key
  /-- A key, or the end of an object that was just opened. -/
  | keyOrClose
  | colon (key : Option String)
  /-- A comma or the end of the innermost container, or the end of the text. -/
  | after

structure Machine where
  stack : List Frame
  expect : Expect
  /-- The outermost value, once it is complete. -/
  result : Option Json

namespace Machine

def initial : Machine := ⟨[], .value, none⟩

/-- The object of the given members, last one first. -/
def objectOf (reversed : List (Option String × Json)) : Json :=
  if reversed.all (·.1.isSome) then
    .object (reversed.reverse.map fun (k, v) => (k.getD "", v))
  else .unreadable

/-- Hands a complete value to the innermost open container. -/
def accept (v : Json) : List Frame → Machine
  | [] => ⟨[], .after, some v⟩
  | .array done :: rest => ⟨.array (v :: done) :: rest, .after, none⟩
  | .object done key :: rest => ⟨.object ((key, v) :: done) none :: rest, .after, none⟩

/-- The first token of a value. -/
def begin (stack : List Frame) : Token → Option Machine
  | .openArray => some ⟨.array [] :: stack, .valueOrClose, none⟩
  | .openObject => some ⟨.object [] none :: stack, .keyOrClose, none⟩
  | .null => some (accept .null stack)
  | .bool b => some (accept (.bool b) stack)
  | .number (some n) => some (accept (.number n) stack)
  | .string (some s) => some (accept (.string s) stack)
  | .number none => some (accept .unreadable stack)
  | .string none => some (accept .unreadable stack)
  | _ => none

def close : List Frame → Token → Option Machine
  | .array done :: rest, .closeArray => some (accept (.array done.reverse) rest)
  | .object done _ :: rest, .closeObject => some (accept (objectOf done) rest)
  | _, _ => none

def step (m : Machine) (t : Token) : Option Machine :=
  match m.expect with
  | .value => begin m.stack t
  | .valueOrClose => if t = .closeArray then close m.stack t else begin m.stack t
  | .key =>
    match t with
    | .string s => some { m with expect := .colon s }
    | _ => none
  | .keyOrClose =>
    match t with
    | .string s => some { m with expect := .colon s }
    | .closeObject => close m.stack t
    | _ => none
  | .colon key =>
    match t, m.stack with
    | .colon, .object done _ :: rest => some ⟨.object done key :: rest, .value, none⟩
    | _, _ => none
  | .after =>
    match t, m.stack with
    | .comma, .array _ :: _ => some { m with expect := .value }
    | .comma, .object _ _ :: _ => some { m with expect := .key }
    | _, [] => none
    | _, _ => close m.stack t

end Machine

def ofTokens? (tokens : List Token) : Option Json :=
  match tokens.foldlM Machine.step Machine.initial with
  | some m => m.result
  | none => none

/-- The value that a text denotes: one value with blanks around it. -/
def parse? (text : String) : Option Json :=
  (Token.scan text.toList).bind ofTokens?

end CodeAtlas.Json
