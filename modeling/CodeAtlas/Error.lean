/-!
# Errors

What can go wrong, by cause, and the wording of each. A failure inside a multi-step write is
wrapped with the batch that it belongs to; a failed migration carries its own context.
-/

namespace CodeAtlas

/-- Input that the store must never hold. -/
inductive Invalid where
  | entityName
  | entityPath (name : String)
  | entityStart (name : String)
  | entityLines (name : String) (endLine startLine : Nat)
  | relationshipEnds (kind : String)
  | versionTwice (version : Int) (first second : String)
  | irreversible
  | other (text : String)
  deriving DecidableEq, Repr

def Invalid.message : Invalid → String
  | .entityName => "entity name is required"
  | .entityPath name => "entity '" ++ name ++ "' has no file path"
  | .entityStart name => "entity '" ++ name ++ "' start line must be 1-based"
  | .entityLines name endLine startLine =>
    "entity '" ++ name ++ "' ends (line " ++ toString endLine ++ ") before it starts (line "
      ++ toString startLine ++ ")"
  | .relationshipEnds kind => kind ++ " relationship needs both a source and a target id"
  | .versionTwice version first second =>
    "migration version " ++ toString version ++ " is defined twice (" ++ first ++ " and "
      ++ second ++ ")"
  | .irreversible => "no reverse operation is defined for this version"
  | .other text => text

/-- A rule of the tables that a row would break. -/
inductive Rule where
  | endpoint
  | uniqueEdge
  | uniquePath
  | uniqueVersion
  /-- A rule added from outside, which turns away rows of a given name, type or language. -/
  | rejected
  deriving DecidableEq, Repr

def Rule.message : Rule → String
  | .endpoint => "FOREIGN KEY constraint failed"
  | .uniqueEdge =>
    "UNIQUE constraint failed: relationships.source_id, relationships.target_id, relationships.type"
  | .uniquePath => "UNIQUE constraint failed: files.file_path"
  | .uniqueVersion => "UNIQUE constraint failed: schema_migrations.version"
  | .rejected => "rejected"

/-- A statement that the storage cannot carry out, or a row that it cannot read back. -/
inductive StorageFault where
  | broken (rule : Rule)
  | noTable (name : String)
  | tableExists (name : String)
  | noColumn (name : String)
  | syntaxError (word : String)
  | notADatabase
  | cannotOpen (path : String)
  | noRows
  | patternTooLong
  | outOfRange (value : Int) (column : Nat)
  | notANumber (column : Nat) (name : String)
  | unknownKind (column : Nat) (what text : String)
  deriving DecidableEq, Repr

/-- The wording of an unknown type. -/
def unknownKindText (what text : String) : String :=
  "Unknown " ++ what ++ " type: " ++ text

def StorageFault.message : StorageFault → String
  | .broken rule => rule.message
  | .noTable name => "no such table: " ++ name
  | .tableExists name => "table " ++ name ++ " already exists"
  | .noColumn name => "no such column: " ++ name
  | .syntaxError word => "near \"" ++ word ++ "\": syntax error"
  | .notADatabase => "file is not a database"
  | .cannotOpen path => "unable to open database file: " ++ path
  | .noRows => "Query returned no rows"
  | .patternTooLong => "LIKE or GLOB pattern too complex"
  | .outOfRange value column =>
    "Integer " ++ toString value ++ " out of range at index " ++ toString column
  | .notANumber column name =>
    "Invalid column type Text at index: " ++ toString column ++ ", name: " ++ name
  | .unknownKind column what text =>
    "Conversion error from type Text at index: " ++ toString column ++ ", Unknown kind: "
      ++ unknownKindText what text

inductive Error where
  | validation (cause : Invalid)
  /-- A broken rule of the tables, named with the operation that broke it. -/
  | constraint (text : String)
  | transaction (context : String) (source : Error)
  | migration (version : Int) (name : String) (source : Error)
  | invalidKind (text : String)
  | storage (fault : StorageFault)
  | serialization
  deriving DecidableEq, Repr

namespace Error

def message : Error → String
  | .validation cause => "Validation error: " ++ cause.message
  | .constraint text => "Constraint violation: " ++ text
  | .transaction context source => "Transaction failed (" ++ context ++ "): " ++ source.message
  | .migration version name source =>
    "Migration " ++ toString version ++ " (" ++ name ++ ") failed: " ++ source.message
  | .invalidKind text => "Unknown kind: " ++ text
  | .storage fault => "Storage error: " ++ fault.message
  | .serialization => "Serialization error"

/-- Wraps an error with the batch that it belongs to; a migration's failure stays as it is. -/
def inTransaction (context : String) : Error → Error
  | .migration version name source => .migration version name source
  | e => .transaction context e

/-- Whether a broken rule of the tables is behind the error. A migration hides it. -/
def isConstraint : Error → Bool
  | .constraint _ => true
  | .transaction _ source => source.isConstraint
  | .storage (.broken _) => true
  | _ => false

/-- A broken rule becomes a constraint error that names the operation. -/
def ofInsert (operation : String) : StorageFault → Error
  | .broken rule => .constraint (operation ++ ": " ++ rule.message)
  | fault => .storage fault

end Error

end CodeAtlas
