import GraphQuery.Yaml.Gap

/-!
# Quoted scalars

Scalars between single or double quotes. Within single quotes a quote is written twice; within
double quotes a backslash begins an escape.
-/

namespace GraphQuery.Yaml

inductive Quote
  | single
  | double
  deriving DecidableEq, Repr

def Quote.mark : Quote → Char
  | .single => '\x27'
  | .double => '\x22'

/-- How far a sequence of characters that stands for one has been read. -/
inductive Escape
  | none
  /-- A single quote, which is the end or the first of two. -/
  | quote
  | backslash
  /-- So many digits of a code point are still to come. -/
  | code (digits value : Nat)
  deriving DecidableEq, Repr

/-- The character a backslash and a letter stand for. -/
def namedEscape? : Char → Option Char
  | '0' => some '\x00'
  | 'a' => some '\x07'
  | 'b' => some '\x08'
  | 't' | '\t' => some '\t'
  | 'n' => some '\n'
  | 'v' => some '\x0b'
  | 'f' => some '\x0c'
  | 'r' => some '\r'
  | 'e' => some '\x1b'
  | ' ' => some ' '
  | '\x22' => some '\x22'
  | '/' => some '/'
  | '\\' => some '\\'
  | 'N' => some '\x85'
  | '_' => some '\xa0'
  | 'L' => some '\u2028'
  | 'P' => some '\u2029'
  | _ => none

/-- How many hexadecimal digits of a code point follow a letter. -/
def codeDigits? : Char → Option Nat
  | 'x' => some 2
  | 'u' => some 4
  | 'U' => some 8
  | _ => none

/-- Reads on in a quoted scalar, after the words in `text` and a gap. -/
def quotedFrom (quote : Quote) (text : String) (gap : Gap) (escape : Escape) (place : Place) :
    List Char → Option (String × Cursor)
  | [] => if escape = .quote then some (text, ⟨place, []⟩) else none
  | c :: rest =>
      match escape with
      | .quote =>
          if c = quote.mark then
            quotedFrom quote (text.push c) Gap.none .none (place.after c) rest
          else some (text, ⟨place, c :: rest⟩)
      | .backslash =>
          if isBreak c then quotedFrom quote text (.escaped "") .none (place.after c) rest
          else match namedEscape? c, codeDigits? c with
            | some named, _ =>
                quotedFrom quote (text.push named) Gap.none .none (place.after c) rest
            | none, some digits =>
                quotedFrom quote text Gap.none (.code digits 0) (place.after c) rest
            | none, none => none
      | .code digits value =>
          match hexDigit? c with
          | none => none
          | some digit =>
              if 1 < digits then
                quotedFrom quote text Gap.none (.code (digits - 1) (16 * value + digit))
                  (place.after c) rest
              else match codePoint? (16 * value + digit) with
                | none => none
                | some point =>
                    quotedFrom quote (text.push point) Gap.none .none (place.after c) rest
      | .none =>
          if isBreak c then quotedFrom quote text (gap.addBreak c) .none (place.after c) rest
          else if isBlank c then
            quotedFrom quote text (gap.addBlank c) .none (place.after c) rest
          else if place.column = 0 && isMarker (c :: rest) then none
          else if c = quote.mark then
            match quote with
            | .single =>
                quotedFrom quote (text ++ gap.text) Gap.none .quote (place.after c) rest
            | .double => some (text ++ gap.text, ⟨place.after c, rest⟩)
          else if c = '\\' && quote = .double then
            quotedFrom quote (text ++ gap.text) Gap.none .backslash (place.after c) rest
          else quotedFrom quote ((text ++ gap.text).push c) Gap.none .none (place.after c) rest

/-- The scalar whose opening quote is at the cursor. -/
def quoted? (quote : Quote) (cursor : Cursor) : Option (String × Cursor) :=
  let inside := cursor.forward 1
  quotedFrom quote "" Gap.none .none inside.place inside.rest

end GraphQuery.Yaml
