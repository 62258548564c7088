/-!
# Options on a command line

How words are told apart: `--name`, `--name=value`, clusters of one-letter options such as `-vn`,
and plain words. The value of an option is the rest of its word or else the next word, which must
not look like an option. An option is given at most once.
-/

namespace CodeAtlas.CommandLine

inductive OptionKind where
  | flag
  /-- An option with a value that the test admits. -/
  | value (admits : String → Bool)
  | help
  | version

structure OptionSpec where
  long : String
  short : Option Char := none
  kind : OptionKind := .flag

inductive UsageError where
  | unexpected (word : String)
  | missingValue (option : String)
  | surplusValue (option : String)
  | invalidValue (option value : String)
  | repeated (option : String)
  | missingOption (option : String)
  | missingCommand
  deriving DecidableEq, Repr

def UsageError.message : UsageError → String
  | .unexpected word => "unexpected argument '" ++ word ++ "'"
  | .missingValue option => "a value is required for '--" ++ option ++ "'"
  | .surplusValue option => "'--" ++ option ++ "' takes no value"
  | .invalidValue option value => "invalid value '" ++ value ++ "' for '--" ++ option ++ "'"
  | .repeated option => "the argument '--" ++ option ++ "' cannot be used multiple times"
  | .missingOption option => "'--" ++ option ++ "' is required"
  | .missingCommand => "a command is required"

/-- The options that were given, by their long names, with their values. -/
abbrev Given := List (String × Option String)

namespace Given

def has (option : String) (g : Given) : Bool := g.any (·.1 == option)

def value? (option : String) (g : Given) : Option String := (g.lookup option).join

def add (option : String) (value : Option String) (g : Given) : Except UsageError Given :=
  if g.has option then .error (.repeated option) else .ok (g ++ [(option, value)])

/-- The options given at two places; what is given at the second one counts. -/
def merge (first second : Given) : Given := second ++ first

end Given

/-- A word, told by how it starts. -/
inductive Word where
  | plain (s : String)
  | long (name : String) (value : Option String)
  | cluster (letters : List Char)
  /-- The word `--`. -/
  | separator

def Word.ofString (s : String) : Word :=
  match s.toList with
  | ['-', '-'] => .separator
  | '-' :: '-' :: rest =>
    let name := String.ofList (rest.takeWhile (· != '='))
    match rest.dropWhile (· != '=') with
    | [] => .long name none
    | _ :: value => .long name (some (String.ofList value))
  | '-' :: c :: rest => .cluster (c :: rest)
  | _ => .plain s

/-- What stops the reading of options. -/
inductive Stop where
  | exhausted
  | command (name : String) (rest : List String)
  | help
  | version

/-- Where options are read: those that are known, and the plain words that are commands. -/
structure Level where
  options : List OptionSpec
  commands : List String := []

/-- What one word contributes. -/
inductive Contribution where
  /-- Options, and perhaps one more that waits for its value. -/
  | options (given : Given) (pending : Option (String × (String → Bool)))
  | stop (s : Stop)

def giveValue (option : String) (admits : String → Bool) (value : String) (g : Given) :
    Except UsageError Given :=
  if admits value then g.add option (some value) else .error (.invalidValue option value)

def readLong (level : Level) (g : Given) (name : String) (value : Option String) :
    Except UsageError Contribution :=
  match level.options.find? (·.long == name), value with
  | none, _ => .error (.unexpected ("--" ++ name))
  | some ⟨_, _, .value admits⟩, some v => return .options (← giveValue name admits v g) none
  | some ⟨_, _, .value admits⟩, none => .ok (.options g (some (name, admits)))
  | some _, some _ => .error (.surplusValue name)
  | some ⟨_, _, .flag⟩, none => return .options (← g.add name none) none
  | some ⟨_, _, .help⟩, none => .ok (.stop .help)
  | some ⟨_, _, .version⟩, none => .ok (.stop .version)

def readCluster (level : Level) (g : Given) : List Char → Except UsageError Contribution
  | [] => .ok (.options g none)
  | c :: rest =>
    match level.options.find? (·.short == some c) with
    | none => .error (.unexpected ("-" ++ String.singleton c))
    | some ⟨name, _, .flag⟩ =>
      match g.add name none with
      | .ok g => readCluster level g rest
      | .error e => .error e
    | some ⟨name, _, .value admits⟩ =>
      match rest with
      | [] => .ok (.options g (some (name, admits)))
      | '=' :: value => return .options (← giveValue name admits (String.ofList value) g) none
      | value => return .options (← giveValue name admits (String.ofList value) g) none
    | some ⟨_, _, .help⟩ => .ok (.stop .help)
    | some ⟨_, _, .version⟩ => .ok (.stop .version)

/-- Reads words one by one; `pending` is an option that waits for its value. -/
def scan (level : Level) (g : Given) (pending : Option (String × (String → Bool))) :
    List String → Except UsageError (Given × Stop)
  | [] =>
    match pending with
    | some (name, _) => .error (.missingValue name)
    | none => .ok (g, .exhausted)
  | arg :: rest =>
    match Word.ofString arg, pending with
    | .plain s, some (name, admits) =>
      match giveValue name admits s g with
      | .ok g => scan level g none rest
      | .error e => .error e
    | _, some (name, _) => .error (.missingValue name)
    | .plain s, none =>
      if level.commands.contains s then .ok (g, .command s rest) else .error (.unexpected s)
    | .separator, none =>
      match rest with
      | [] => .ok (g, .exhausted)
      | word :: _ => .error (.unexpected word)
    | .long name value, none =>
      match readLong level g name value with
      | .ok (.options g pending) => scan level g pending rest
      | .ok (.stop s) => .ok (g, s)
      | .error e => .error e
    | .cluster letters, none =>
      match readCluster level g letters with
      | .ok (.options g pending) => scan level g pending rest
      | .ok (.stop s) => .ok (g, s)
      | .error e => .error e

/-! ### Values -/

def anyText (_ : String) : Bool := true

def isPath (s : String) : Bool := s != ""

/-- A number in decimal digits up to a bound, perhaps after a plus sign. -/
def natUpTo? (bound : Nat) (s : String) : Option Nat :=
  let digits := match s.toList with
    | '+' :: rest => rest
    | cs => cs
  if digits.isEmpty || !digits.all Char.isDigit then none
  else
    let n := digits.foldl (fun n c => n * 10 + (c.toNat - '0'.toNat)) 0
    if n ≤ bound then some n else none

/-- The same, where zero may have a minus sign. -/
def signedUpTo? (bound : Nat) (s : String) : Option Nat :=
  match s.toList with
  | '-' :: rest =>
    if rest.head? == some '+' then none else natUpTo? 0 (String.ofList rest)
  | _ => natUpTo? bound s

end CodeAtlas.CommandLine
