import GraphQuery.File
import GraphQuery.Text.Line

/-!
# Settings

What a builder can be told: how deep blocks may nest, whether finished queries are to be logged,
and where the catalog's table is.
-/

namespace GraphQuery

structure Settings where
  /-- The deepest nesting of subqueries, unions and loops. -/
  maxDepth : Nat := 16
  logQueries : Bool := false
  catalogPath : Option String := none
  deriving DecidableEq, Repr, Inhabited

namespace Settings

/-- Numbers are read into 32 bits. -/
def numberBound : Nat := 4294967296

/-- Why a text is no number below the bound. -/
inductive NumberError
  | empty
  | invalidDigit
  | tooLarge
  deriving DecidableEq, Repr

def NumberError.message : NumberError → String
  | .empty => "cannot parse integer from empty string"
  | .invalidDigit => "invalid digit found in string"
  | .tooLarge => "number too large to fit in target type"

/-- Why settings cannot be had from where they were looked for. -/
inductive Error
  | depthOutOfRange
  | malformedDepth (text : String) (reason : NumberError)
  | malformedFlag (text : String)
  | unreadable (reason : ReadFailure)
  | malformedDocument (content : String)
  deriving DecidableEq, Repr

/-- The setting that is at fault, and the text it was to be read from. -/
def Error.subject? : Error → Option (String × String)
  | .depthOutOfRange => none
  | .malformedDepth text _ => some ("CYPHERCRAFT_MAX_NESTING_DEPTH", text)
  | .malformedFlag text => some ("CYPHERCRAFT_LOG_QUERIES", text)
  | .unreadable _ => some ("yaml_file", "file read failed")
  | .malformedDocument content => some ("yaml_content", content)

def Error.reason : Error → String
  | .depthOutOfRange => "max_nesting_depth: Max nesting depth must be between 1 and 64"
  | .malformedDepth _ reason => reason.message
  | .malformedFlag _ => "provided string was not `true` or `false`"
  | .unreadable reason => reason.message
  | .malformedDocument _ => "malformed document"

def Error.message (error : Error) : String :=
  match error.subject? with
  | none => "Validation error: " ++ error.reason
  | some (field, value) =>
      "Parse error for " ++ field ++ ": " ++ value ++ " - " ++ error.reason

/-- Settings are valid when blocks may nest at all, and not too deep. -/
def validate (settings : Settings) : Except Error Settings :=
  if 1 ≤ settings.maxDepth ∧ settings.maxDepth ≤ 64 then .ok settings
  else .error .depthOutOfRange

end Settings

end GraphQuery
