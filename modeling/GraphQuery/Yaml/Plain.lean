import GraphQuery.Yaml.Gap

/-!
# Plain scalars

Scalars without quotes. They may run over several lines, all of them further in than the collection
around them.
-/

namespace GraphQuery.Yaml

/-- A plain scalar, and the place where the next token may begin. -/
structure Plain where
  text : String
  /-- Whether line breaks were read after the last word. -/
  crossedLines : Bool
  cursor : Cursor

def isFlowIndicator (c : Char) : Bool :=
  c = ',' || c = '[' || c = ']' || c = '\x7b' || c = '\x7d'

/-- Whether a plain scalar ends before `c`, which is no blank. -/
def endsPlain (inFlow : Bool) (margin : Nat) (gap : Gap) (place : Place) (c : Char)
    (rest : List Char) : Bool :=
  (c = ':' && endsWord rest) || (inFlow && isFlowIndicator c) || (c = '#' && gap ≠ Gap.none) ||
    (place.column = 0 && isMarker (c :: rest)) ||
    (!inFlow && gap ≠ Gap.none && place.column < margin)

/-- A colon directly before an indicator of a flow collection belongs to nothing. -/
def isStrayColon (inFlow : Bool) (c : Char) (rest : List Char) : Bool :=
  inFlow && c = ':' && rest.head?.any fun next => isFlowIndicator next || next = '?'

/-- Reads on in a plain scalar, after the words in `text` and a gap. -/
def plainFrom (inFlow : Bool) (margin : Nat) (text : String) (gap : Gap) (place : Place) :
    List Char → Option Plain
  | [] => some ⟨text, gap.crossesLines, ⟨place, []⟩⟩
  | c :: rest =>
      if isBreak c then plainFrom inFlow margin text (gap.addBreak c) (place.after c) rest
      else if isBlank c then
        if c = '\t' && gap.crossesLines && place.column < margin then none
        else plainFrom inFlow margin text (gap.addBlank c) (place.after c) rest
      else if endsPlain inFlow margin gap place c rest then
        some ⟨text, gap.crossesLines, ⟨place, c :: rest⟩⟩
      else if isStrayColon inFlow c rest then none
      else plainFrom inFlow margin ((text ++ gap.text).push c) Gap.none (place.after c) rest

/-- The plain scalar at a cursor, whose lines start at column `margin` or further in. -/
def plain? (inFlow : Bool) (margin : Nat) (cursor : Cursor) : Option Plain :=
  plainFrom inFlow margin "" Gap.none cursor.place cursor.rest

end GraphQuery.Yaml
