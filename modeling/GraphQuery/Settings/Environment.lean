import GraphQuery.Settings.Basic

/-!
# Settings from the environment

Reads settings from the texts of environment variables. A setting whose variable is not there keeps
its default.
-/

namespace GraphQuery.Settings

/-- The texts of the variables that are set. -/
structure Environment where
  maxDepth : Option String := none
  logQueries : Option String := none
  catalog : Option String := none

/-- Reads decimal digits on from `value`. The first that cannot be taken decides the error. -/
def readDigits (value : Nat) : List Char → Except NumberError Nat
  | [] => .ok value
  | c :: rest =>
      if c.isDigit then
        let next := 10 * value + (c.toNat - '0'.toNat)
        if next < numberBound then readDigits next rest else .error .tooLarge
      else .error .invalidDigit

/-- A number below the bound: decimal digits, perhaps after a plus sign. -/
def readNumber (text : String) : Except NumberError Nat :=
  match text.toList with
  | [] => .error .empty
  | ['+'] => .error .invalidDigit
  | '+' :: digits => readDigits 0 digits
  | digits => readDigits 0 digits

def readDepth (text : String) : Except Error Nat :=
  match readNumber text with
  | .ok depth => .ok depth
  | .error reason => .error (.malformedDepth text reason)

def readFlag (text : String) : Except Error Bool :=
  match text with
  | "true" => .ok true
  | "false" => .ok false
  | _ => .error (.malformedFlag text)

/-- The depth is read before the flag, and validated when both could be read. -/
def ofEnvironment (environment : Environment) : Except Error Settings := do
  let standard : Settings := {}
  let maxDepth ← environment.maxDepth.elim (.ok standard.maxDepth) readDepth
  let logQueries ← environment.logQueries.elim (.ok standard.logQueries) readFlag
  validate { maxDepth, logQueries, catalogPath := environment.catalog }

end GraphQuery.Settings
