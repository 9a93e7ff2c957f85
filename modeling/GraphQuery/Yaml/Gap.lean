import GraphQuery.Yaml.Cursor

/-!
# Gaps

What stands between two words of a scalar, and the text it becomes. Blanks within a line are kept.
Across lines they vanish, a single line break folds to a space, and of several the first is
dropped.
-/

namespace GraphQuery.Yaml

inductive Gap
  | blanks (text : String)
  | breaks (first : Char) (others : String)
  /-- Line breaks after one that was escaped, which are not folded. -/
  | escaped (text : String)
  deriving DecidableEq, Repr

namespace Gap

def none : Gap := .blanks ""

def crossesLines : Gap → Bool
  | .blanks _ => false
  | .breaks _ _ | .escaped _ => true

def addBlank (gap : Gap) (c : Char) : Gap :=
  match gap with
  | .blanks text => .blanks (text.push c)
  | gap => gap

def addBreak (gap : Gap) (c : Char) : Gap :=
  match gap with
  | .blanks _ => .breaks c ""
  | .breaks first others => .breaks first (others.push c)
  | .escaped text => .escaped (text.push c)

/-- Only plain line feeds fold. -/
def text : Gap → String
  | .blanks text | .escaped text => text
  | .breaks first others =>
      if first ≠ '\n' then String.singleton first ++ others
      else if others.isEmpty then " " else others

end Gap

end GraphQuery.Yaml
