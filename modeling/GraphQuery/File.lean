/-!
# Files

How reading a file can fail. The reader itself is supplied by whoever runs the library.
-/

namespace GraphQuery

inductive ReadFailure
  | missing
  | directory
  /-- A file stands where the path needs a directory. -/
  | notDirectory
  | nameTooLong
  /-- The path has a null character in it. -/
  | malformedPath
  /-- The file holds bytes that encode no characters. -/
  | malformedText
  deriving DecidableEq, Repr

def ReadFailure.message : ReadFailure → String
  | .missing => "No such file or directory (os error 2)"
  | .directory => "Is a directory (os error 21)"
  | .notDirectory => "Not a directory (os error 20)"
  | .nameTooLong => "File name too long (os error 36)"
  | .malformedPath => "file name contained an unexpected NUL byte"
  | .malformedText => "stream did not contain valid UTF-8"

/-- Content of the file at a path. -/
abbrev FileReader := String → Except ReadFailure String

end GraphQuery
