import CodeAtlas.CommandLine.Options
import CodeAtlas.Config

/-!
# Commands

What can be asked for on the command line. The paths of the settings and of the database may stand
before or after the name of a command.
-/

namespace CodeAtlas.CommandLine

inductive Command where
  | init (force : Bool)
  | migrate
  | rollback
  | migrations
  | stats
  | callers (name : String)
  | callees (name : String)
  | blastRadius (file : String) (depth : Option Nat)
  | cycles (entity : Option String) (maxCycles : Option Nat)
  | deadCode (includeTests : Bool) (limit : Option Nat)
  | prune (path : String)
  deriving DecidableEq, Repr

/-- A command with the paths that it works on. -/
structure Invocation where
  config : Option String
  database : Option String
  command : Command
  deriving DecidableEq, Repr

/-- What a command line asks for. -/
inductive Request where
  | run (invocation : Invocation)
  | help
  | version
  deriving DecidableEq, Repr

def isDepth (s : String) : Bool := (signedUpTo? Config.maxDepth s).isSome

def isCount (s : String) : Bool := (natUpTo? Config.maxCount s).isSome

/-- The options that stand anywhere. -/
def commonOptions : List OptionSpec :=
  [⟨"verbose", some 'v', .flag⟩, ⟨"config", some 'c', .value isPath⟩,
    ⟨"database", some 'd', .value isPath⟩, ⟨"help", some 'h', .help⟩]

/-- The options of each command. -/
def commandOptions : List (String × List OptionSpec) :=
  [("init", [⟨"force", none, .flag⟩]),
    ("migrate", []), ("rollback", []), ("migrations", []), ("stats", []),
    ("callers", [⟨"name", some 'n', .value anyText⟩]),
    ("callees", [⟨"name", some 'n', .value anyText⟩]),
    ("blast-radius",
      [⟨"file", some 'f', .value isPath⟩, ⟨"depth", none, .value isDepth⟩]),
    ("cycles",
      [⟨"entity", some 'e', .value anyText⟩, ⟨"max-cycles", none, .value isCount⟩]),
    ("dead-code", [⟨"include-tests", none, .flag⟩, ⟨"limit", some 'l', .value isCount⟩]),
    ("prune", [⟨"path", some 'p', .value isPath⟩])]

def outerLevel : Level where
  options := commonOptions ++ [⟨"version", some 'V', .version⟩]
  commands := "help" :: commandOptions.map (·.1)

def levelOf (command : String) : Level where
  options := (commandOptions.lookup command).getD [] ++ commonOptions

/-- A value that must be given. -/
def need (option : String) (g : Given) : Except UsageError String :=
  match g.value? option with
  | some value => .ok value
  | none => .error (.missingOption option)

/-- The command of a name with its options. -/
def Command.ofGiven (name : String) (g : Given) : Except UsageError Command :=
  let count (option : String) : Option Nat := (g.value? option).bind (natUpTo? Config.maxCount)
  match name with
  | "init" => .ok (.init (g.has "force"))
  | "migrate" => .ok .migrate
  | "rollback" => .ok .rollback
  | "migrations" => .ok .migrations
  | "stats" => .ok .stats
  | "callers" => return .callers (← need "name" g)
  | "callees" => return .callees (← need "name" g)
  | "blast-radius" =>
    return .blastRadius (← need "file" g) ((g.value? "depth").bind (signedUpTo? Config.maxDepth))
  | "cycles" => .ok (.cycles (g.value? "entity") (count "max-cycles"))
  | "dead-code" => .ok (.deadCode (g.has "include-tests") (count "limit"))
  | "prune" => .ok (.prune ((g.value? "path").getD "."))
  | other => .error (.unexpected other)

/-- Reads a command line. -/
def Request.ofWords (words : List String) : Except UsageError Request := do
  match ← scan outerLevel [] none words with
  | (_, .help) => return .help
  | (_, .version) => return .version
  | (_, .exhausted) => .error .missingCommand
  | (_, .command "help" _) => return .help
  | (outer, .command name rest) =>
    match ← scan (levelOf name) [] none rest with
    | (_, .help) => return .help
    | (_, .version) => return .version
    | (inner, _) =>
      let given := outer.merge inner
      let command ← Command.ofGiven name inner
      return .run { config := given.value? "config", database := given.value? "database", command }

end CodeAtlas.CommandLine
