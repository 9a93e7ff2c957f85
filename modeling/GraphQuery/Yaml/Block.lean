import GraphQuery.Yaml.Cursor

/-!
# Block scalars

Scalars that are written as an indented block of lines. A literal block keeps its line breaks; a
folded block joins neighbouring lines that do not begin with a blank.
-/

namespace GraphQuery.Yaml

inductive BlockStyle
  | literal
  | folded
  deriving DecidableEq, Repr

/-- What becomes of the line breaks at the end. -/
inductive Chomping
  | strip
  | clip
  | keep
  deriving DecidableEq, Repr

/-! ## Headers -/

structure BlockHeader where
  chomping : Chomping := .clip
  /-- How much further in the block is than the collection around it, where that is given. -/
  indent : Option Nat := none

def chomping? : Char → Option Chomping
  | '-' => some .strip
  | '+' => some .keep
  | _ => none

def indentDigit? (c : Char) : Option Nat :=
  if '1' ≤ c ∧ c ≤ '9' then some (c.toNat - '0'.toNat) else none

/-- Takes the marks of a header, in either order. -/
def BlockHeader.marks (text : List Char) : BlockHeader × List Char :=
  match text with
  | [] => ({}, [])
  | first :: rest =>
      match chomping? first, indentDigit? first with
      | some chomping, _ =>
          match rest with
          | second :: rest' =>
              match indentDigit? second with
              | some indent => (⟨chomping, some indent⟩, rest')
              | none => (⟨chomping, none⟩, rest)
          | [] => (⟨chomping, none⟩, [])
      | none, some indent =>
          match rest with
          | second :: rest' =>
              match chomping? second with
              | some chomping => (⟨chomping, some indent⟩, rest')
              | none => (⟨.clip, some indent⟩, rest)
          | [] => (⟨.clip, some indent⟩, [])
      | none, none => ({}, text)

/-- Nothing but a comment may follow the marks. -/
def BlockHeader.read? (text : List Char) : Option BlockHeader :=
  let (header, rest) := marks text
  match rest.dropWhile isBlank with
  | [] | '#' :: _ => some header
  | _ => none

/-! ## Content -/

/-- The text of a block so far, and the breaks that may still become part of it: the one after the
last line with content, and those of the blank lines since. -/
structure BlockText where
  text : String := ""
  ending : Option Char := none
  blanks : String := ""
  /-- The last line with content begins with a blank. -/
  indented : Bool := false
  deriving DecidableEq, Repr

namespace BlockText

def addBlankLine (block : BlockText) (ending : Char) : BlockText :=
  { block with blanks := block.blanks.push ending }

/-- What the break after the last line becomes when a line that begins with `c` follows. -/
def joint (style : BlockStyle) (block : BlockText) (c : Char) : String :=
  let folds := style = .folded && block.ending = some '\n' && !block.indented && !isBlank c
  if !folds then (block.ending.map String.singleton).getD ""
  else if block.blanks.isEmpty then " " else ""

/-- Begins a line with content. -/
def beginLine (style : BlockStyle) (block : BlockText) (c : Char) : BlockText :=
  { text := (block.text ++ block.joint style c ++ block.blanks).push c
    indented := isBlank c }

def add (block : BlockText) (c : Char) : BlockText :=
  { block with text := block.text.push c }

def endLine (block : BlockText) (ending : Char) : BlockText :=
  { block with ending := some ending }

def chomp (block : BlockText) : Chomping → String
  | .strip => block.text
  | .clip => block.text ++ (block.ending.map String.singleton).getD ""
  | .keep => block.text ++ (block.ending.map String.singleton).getD "" ++ block.blanks

end BlockText

/-! ## Indentation -/

/-- The column a block starts in, as far as that is known before its first line with content. -/
inductive BlockIndent
  | given (column : Nat)
  /-- The first line with content decides, but the block is no less indented than `least`. -/
  | measured (least : Nat)
  deriving DecidableEq, Repr

namespace BlockIndent

/-- The indentation of a block in a collection whose content starts in column `margin`. -/
def ofHeader (header : BlockHeader) (margin : Nat) : BlockIndent :=
  match header.indent with
  | some indent => .given (margin - 1 + indent)
  | none => .measured (max margin 1)

/-- Whether spaces in this column are indentation. -/
def reaches (indent : BlockIndent) (column : Nat) : Bool :=
  match indent with
  | .given start => column < start
  | .measured _ => true

/-- The indentation after a blank line of so many spaces. -/
def afterBlankLine (indent : BlockIndent) (spaces : Nat) : BlockIndent :=
  match indent with
  | .given start => .given start
  | .measured least => .measured (max least spaces)

/-- The column the block starts in, when its first line with content starts in `column`. -/
def settle (indent : BlockIndent) (column : Nat) : Nat :=
  match indent with
  | .given start => start
  | .measured least => max least column

end BlockIndent

/-! ## Blocks -/

/-- Reads on in a block, in the content of a line or in front of it. No tab may stand where
indentation is measured, and a line that is less indented ends the block. -/
def blockFrom (style : BlockStyle) (indent : BlockIndent) (inContent : Bool) (block : BlockText)
    (place : Place) : List Char → Option (BlockText × Cursor)
  | [] => some (block, ⟨place, []⟩)
  | c :: rest =>
      if inContent then
        if isBreak c then blockFrom style indent false (block.endLine c) (place.after c) rest
        else blockFrom style indent true (block.add c) (place.after c) rest
      else if c = ' ' && indent.reaches place.column then
        blockFrom style indent false block (place.after c) rest
      else if isBreak c then
        blockFrom style (indent.afterBlankLine place.column) false (block.addBlankLine c)
          (place.after c) rest
      else if c = '\t' && indent.reaches place.column then none
      else
        let start := indent.settle place.column
        if place.column = start then
          blockFrom style (.given start) true (block.beginLine style c) (place.after c) rest
        else some (block, ⟨place, c :: rest⟩)

/-- The scalar whose indicator is at the cursor, in a collection whose content starts in column
`margin` or further in. -/
def block? (style : BlockStyle) (margin : Nat) (cursor : Cursor) : Option (String × Cursor) := do
  let marks := (cursor.forward 1).rest.takeWhile fun c => !isBreak c
  let header ← BlockHeader.read? marks
  let lines := (cursor.past fun c => !isBreak c).forward 1
  let (block, cursor) ←
    blockFrom style (.ofHeader header margin) false {} lines.place lines.rest
  return (block.chomp header.chomping, cursor)

end GraphQuery.Yaml
