import GraphQuery.Yaml.Anchor
import GraphQuery.Yaml.Block
import GraphQuery.Yaml.Layout
import GraphQuery.Yaml.Plain
import GraphQuery.Yaml.Quoted

/-!
# Reading tokens

Divides a text into tokens, one after the other, each as its first character and the layout so far
tell.
-/

namespace GraphQuery.Yaml

namespace Layout

/-! ## Between tokens -/

/-- Skips blanks, comments, line breaks, and byte order marks that start a line. In a block, a key
may begin on a new line, but not after a tab. -/
def skipFrom (inFlow keyAllowed inComment : Bool) (place : Place) :
    List Char → Cursor × Bool
  | [] => (⟨place, []⟩, keyAllowed)
  | c :: rest =>
      if isBreak c then skipFrom inFlow (keyAllowed || !inFlow) false (place.after c) rest
      else if inComment then skipFrom inFlow keyAllowed true (place.after c) rest
      else if c = ' ' || (c = '\t' && (inFlow || !keyAllowed)) then
        skipFrom inFlow keyAllowed false (place.after c) rest
      else if c = '\uFEFF' && place.column = 0 then
        skipFrom inFlow keyAllowed false (place.after c) rest
      else if c = '#' then skipFrom inFlow keyAllowed true (place.after c) rest
      else (⟨place, c :: rest⟩, keyAllowed)

/-- Goes on to the next token, and closes the block collections that end before it. -/
def advance (layout : Layout) : Option Layout := do
  let (cursor, keyAllowed) :=
    skipFrom layout.inFlow layout.keyAllowed false layout.cursor.place layout.cursor.rest
  let layout ← { layout with cursor, keyAllowed }.dropStaleKey
  if layout.inFlow then return layout
  else return layout.closeBlocks fun column => layout.column < column

/-! ## Marks -/

def readMarker (layout : Layout) (token : Token) : Option Layout := do
  let layout ← (layout.closeBlocks fun _ => true).dropKey
  return ({ layout with keyAllowed := false }.emit token).forward 3

def openFlow (layout : Layout) (token : Token) : Option Layout := do
  let layout ← layout.noteKey
  let layout := { layout with
    key := none
    outerKeys := layout.key :: layout.outerKeys
    keyAllowed := true }
  return (layout.emit token).forward 1

def closeFlow (layout : Layout) (token : Token) : Option Layout := do
  let layout ← layout.dropKey
  let layout := { layout with
    key := layout.outerKeys.head?.join
    outerKeys := layout.outerKeys.tail
    keyAllowed := false }
  return (layout.emit token).forward 1

def readComma (layout : Layout) : Option Layout := do
  let layout ← layout.dropKey
  return ({ layout with keyAllowed := true }.emit .comma).forward 1

/-- In a block, a dash begins an item only where a key might begin. -/
def readItem (layout : Layout) : Option Layout := do
  guard (layout.inFlow || layout.keyAllowed)
  let layout ← (layout.openBlock layout.column layout.tokens.size .blockSequence).dropKey
  return ({ layout with keyAllowed := true }.emit .item).forward 1

/-- A question mark in front of a key of any form. -/
def readKey (layout : Layout) : Option Layout := do
  guard (layout.inFlow || layout.keyAllowed)
  let layout ← (layout.openBlock layout.column layout.tokens.size .blockMapping).dropKey
  return ({ layout with keyAllowed := !layout.inFlow }.emit .key).forward 1

/-- A colon. What began at the noted place, if there is one, was the key. -/
def readValue (layout : Layout) : Option Layout := do
  match layout.key with
  | some start =>
      let layout := { layout with key := none, keyAllowed := false }
      let layout := layout.emitAt start.position .key
      let layout := layout.openBlock start.place.column start.position .blockMapping
      return (layout.emit .value).forward 1
  | none =>
      guard (layout.inFlow || layout.keyAllowed)
      let layout := layout.openBlock layout.column layout.tokens.size .blockMapping
      return ({ layout with keyAllowed := !layout.inFlow }.emit .value).forward 1

def readDirective (layout : Layout) : Option Layout := do
  let layout ← (layout.closeBlocks fun _ => true).dropKey
  let (directive, cursor) ← Directive.read? layout.cursor
  return { layout with cursor, keyAllowed := false }.emit (.directive directive)

/-! ## Anchors, references and tags -/

def readAnchor (layout : Layout) : Option Layout := do
  let layout ← layout.noteKey
  let (name, cursor) ← anchorName? layout.cursor
  return { layout with cursor, keyAllowed := false }.emit (.anchor name)

def readReference (layout : Layout) : Option Layout := do
  let layout ← layout.noteKey
  let (name, cursor) ← anchorName? layout.cursor
  return { layout with cursor, keyAllowed := false }.emit (.reference name)

def readTag (layout : Layout) : Option Layout := do
  let layout ← layout.noteKey
  let (tag, cursor) ← Tag.read? layout.inFlow layout.cursor
  return { layout with cursor, keyAllowed := false }.emit (.tag tag)

/-! ## Scalars -/

def readPlain (layout : Layout) : Option Layout := do
  let layout ← layout.noteKey
  let scalar ← plain? layout.inFlow layout.margin layout.cursor
  return { layout with
    cursor := scalar.cursor
    keyAllowed := scalar.crossedLines }.emit (.scalar .plain scalar.text)

def readQuoted (layout : Layout) (quote : Quote) : Option Layout := do
  let layout ← layout.noteKey
  let (text, cursor) ← quoted? quote layout.cursor
  return { layout with
    cursor, keyAllowed := false }.emit (.scalar .other text)

def readBlock (layout : Layout) (style : BlockStyle) : Option Layout := do
  guard (!layout.inFlow)
  let layout ← layout.dropKey
  let (text, cursor) ← block? style layout.margin layout.cursor
  return { layout with
    cursor, keyAllowed := true }.emit
      (.scalar (if style = BlockStyle.literal then .literal else .other) text)

/-! ## Texts -/

/-- Whether a plain scalar may begin with `c`. The first three are marks when a word ends after
them. -/
def beginsPlain (inFlow : Bool) (c : Char) (rest : List Char) : Bool :=
  match c with
  | '-' => !endsWord rest
  | '?' | ':' => !inFlow && !endsWord rest
  | '#' | '&' | '*' | '!' | '%' | '@' | '\x60' => false
  | _ => !isBlank c

/-- Reads the token at the cursor. -/
def readToken (layout : Layout) (c : Char) (rest : List Char) : Option Layout :=
  if c = '%' && layout.column = 0 then layout.readDirective
  else if layout.cursor.atMarker then
    layout.readMarker (if c = '-' then .documentStart else .documentEnd)
  else if c = '[' then layout.openFlow .flowSequence
  else if c = '\x7b' then layout.openFlow .flowMapping
  else if c = ']' then layout.closeFlow .flowSequenceEnd
  else if c = '\x7d' then layout.closeFlow .flowMappingEnd
  else if c = ',' then layout.readComma
  else if c = '&' then layout.readAnchor
  else if c = '*' then layout.readReference
  else if c = '!' then layout.readTag
  else if c = '\x27' then layout.readQuoted .single
  else if c = '\x22' then layout.readQuoted .double
  else if c = '|' then layout.readBlock .literal
  else if c = '>' then layout.readBlock .folded
  else if beginsPlain layout.inFlow c rest then layout.readPlain
  else if c = '-' then layout.readItem
  else if c = '?' then layout.readKey
  else if c = ':' then layout.readValue
  else none

/-- Reads on to the end. Each token takes a character at least, so there are no more tokens than
characters. -/
def readAll : Nat → Layout → Option (List Token)
  | 0, _ => none
  | fuel + 1, layout => do
      let layout ← layout.advance
      match layout.cursor.rest with
      | [] =>
          let layout ← (layout.closeBlocks fun _ => true).dropKey
          return layout.tokens.toList
      | c :: rest => readAll fuel (← layout.readToken c rest)

end Layout

/-- The tokens of a text, unless it is malformed. -/
def tokens? (text : List Char) : Option (List Token) :=
  if text.all isPermitted then
    let text := normalizeBreaks text
    Layout.readAll (text.length + 1) { cursor := { rest := text } }
  else none

end GraphQuery.Yaml
