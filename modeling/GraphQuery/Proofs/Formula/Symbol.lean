import GraphQuery.Proofs.Formula.Word
import Mathlib.Data.List.DropRight

/-! # Symbols

A condition's text as its reader takes it in: round brackets, the words of connectives, and the
leaf texts that stand between them. -/

namespace GraphQuery.Formula

inductive Symbol
  | leaf (text : String)
  | connective (connective : Connective)
  | opening
  | closing
  deriving DecidableEq, Repr

/-- The symbol that a piece is by itself. Any other piece belongs to a leaf. -/
def Symbol.ofPiece? (piece : List Char) : Option Symbol :=
  if piece = ['('] then some .opening
  else if piece = [')'] then some .closing
  else (connective? piece).map .connective

def dropSpaces (cs : List Char) : List Char :=
  (cs.dropWhile (· = ' ')).rdropWhile (· = ' ')

/-- The spaces around a leaf do not belong to it, and spaces alone are no leaf. -/
def leafOf (cs : List Char) : List Symbol :=
  if dropSpaces cs = [] then [] else [.leaf (String.ofList (dropSpaces cs))]

/-- Reads on with the characters of a leaf that has begun. -/
def symbolsFrom (begun : List Char) : List (List Char) → List Symbol
  | [] => leafOf begun
  | piece :: rest =>
      match Symbol.ofPiece? piece with
      | some symbol => leafOf begun ++ symbol :: symbolsFrom [] rest
      | none => symbolsFrom (begun ++ piece) rest

def symbols (text : String) : List Symbol :=
  symbolsFrom [] (pieces text.toList)

/-! ## Leaves -/

/-- A leaf text that a reader takes for one leaf: it has no quote, no bracket and no connective's
word in it, and neither begins nor ends with a space. -/
structure PlainLeaf (text : String) : Prop where
  nonempty : text.toList ≠ []
  head : text.toList.head? ≠ some ' '
  last : text.toList.getLast? ≠ some ' '
  unquoted : ∀ c ∈ text.toList, isQuote c = false
  unbracketed : ∀ c ∈ text.toList, opensBracket c = false ∧ closesBracket c = false
  wordless : ∀ word ∈ pieces text.toList, connective? word = none

instance (text : String) : Decidable (PlainLeaf text) :=
  decidable_of_iff (text.toList ≠ [] ∧ text.toList.head? ≠ some ' ' ∧
      text.toList.getLast? ≠ some ' ' ∧ text.toList.all (isQuote · = false) ∧
      text.toList.all (fun c => opensBracket c = false ∧ closesBracket c = false) ∧
      (pieces text.toList).all (connective? · = none))
    ⟨fun ⟨hnonempty, hhead, hlast, hquotes, hbrackets, hwords⟩ =>
      ⟨hnonempty, hhead, hlast, by simpa using hquotes, by simpa using hbrackets,
        by simpa using hwords⟩,
    fun h => ⟨h.nonempty, h.head, h.last, by simpa using h.unquoted, by simpa using h.unbracketed,
      by simpa using h.wordless⟩⟩

theorem dropSpaces_spaces (spaces : List Char) (h : ∀ c ∈ spaces, c = ' ') :
    dropSpaces spaces = [] := by
  have hdrop : spaces.dropWhile (· = ' ') = [] := by
    rw [List.dropWhile_eq_nil_iff]
    simpa using h
  simp [dropSpaces, hdrop]

theorem dropSpaces_append_space (cs : List Char) : dropSpaces (cs ++ [' ']) = dropSpaces cs := by
  by_cases h : ∀ c ∈ cs, c = ' '
  · rw [dropSpaces_spaces cs h, dropSpaces_spaces]
    intro c hc
    rcases List.mem_append.mp hc with hc | hc
    · exact h c hc
    · simpa using hc
  · have hdrop : (cs ++ [' ']).dropWhile (· = ' ') = cs.dropWhile (· = ' ') ++ [' '] := by
      rw [List.dropWhile_append, if_neg]
      simpa [List.dropWhile_eq_nil_iff] using h
    rw [dropSpaces, hdrop, List.rdropWhile_concat_pos _ _ _ (by simp), dropSpaces]

theorem PlainLeaf.dropSpaces_append {text : String} (h : PlainLeaf text) (spaces : List Char)
    (hspaces : ∀ c ∈ spaces, c = ' ') : dropSpaces (spaces ++ text.toList) = text.toList := by
  have hdrop : (spaces ++ text.toList).dropWhile (· = ' ') = text.toList := by
    rw [List.dropWhile_append_of_pos (by simpa using hspaces)]
    obtain ⟨c, rest, htext⟩ := List.exists_cons_of_ne_nil h.nonempty
    have hc : c ≠ ' ' := by simpa [htext] using h.head
    simp [htext, hc]
  rw [dropSpaces, hdrop, List.rdropWhile_eq_self_iff]
  intro hne
  have hlast := h.last
  rw [List.getLast?_eq_some_getLast hne] at hlast
  simpa using hlast

theorem leafOf_spaces (spaces : List Char) (h : ∀ c ∈ spaces, c = ' ') : leafOf spaces = [] := by
  simp [leafOf, dropSpaces_spaces spaces h]

theorem PlainLeaf.leafOf_append {text : String} (h : PlainLeaf text) (spaces : List Char)
    (hspaces : ∀ c ∈ spaces, c = ' ') : leafOf (spaces ++ text.toList) = [.leaf text] := by
  simp only [leafOf, h.dropSpaces_append spaces hspaces, if_neg h.nonempty, String.ofList_toList]

theorem PlainLeaf.ofPiece?_eq_none {text : String} (h : PlainLeaf text) (piece : List Char)
    (hp : piece ∈ pieces text.toList) : Symbol.ofPiece? piece = none := by
  have hmem : ∀ c ∈ piece, c ∈ text.toList := by
    intro c hc
    rw [← flatten_pieces text.toList]
    exact List.mem_flatten_of_mem hp hc
  have hopening : piece ≠ ['('] := by
    rintro rfl
    have hb := (h.unbracketed '(' (hmem '(' (by simp))).1
    exact absurd hb (by decide)
  have hclosing : piece ≠ [')'] := by
    rintro rfl
    have hb := (h.unbracketed ')' (hmem ')' (by simp))).2
    exact absurd hb (by decide)
  simp [Symbol.ofPiece?, hopening, hclosing, h.wordless piece hp]

/-! ## Reading printed text -/

theorem symbolsFrom_append (begun : List Char) (front rest : List (List Char))
    (h : ∀ piece ∈ front, Symbol.ofPiece? piece = none) :
    symbolsFrom begun (front ++ rest) = symbolsFrom (begun ++ front.flatten) rest := by
  induction front generalizing begun with
  | nil => simp
  | cons piece front ih =>
      rw [List.cons_append, symbolsFrom, h piece (by simp)]
      simp only
      rw [ih _ (fun p hp => h p (by simp [hp]))]
      simp

theorem symbolsFrom_symbol (begun : List Char) {piece : List Char} {symbol : Symbol}
    (h : Symbol.ofPiece? piece = some symbol) (rest : List (List Char)) :
    symbolsFrom begun (piece :: rest) = leafOf begun ++ symbol :: symbolsFrom [] rest := by
  rw [symbolsFrom, h]

theorem symbolsFrom_space (begun : List Char) (rest : List (List Char)) :
    symbolsFrom begun ([' '] :: rest) = symbolsFrom (begun ++ [' ']) rest := by
  rw [symbolsFrom, show Symbol.ofPiece? [' '] = none by decide]

/-- A leaf that has begun ends where these pieces begin. -/
def Parting (rest : List (List Char)) : Prop :=
  ∀ begun, symbolsFrom begun rest = leafOf begun ++ symbolsFrom [] rest

theorem parting_nil : Parting [] := by
  intro begun
  simp [symbolsFrom, leafOf_spaces]

theorem parting_symbol {piece : List Char} {symbol : Symbol}
    (h : Symbol.ofPiece? piece = some symbol) (rest : List (List Char)) :
    Parting (piece :: rest) := by
  intro begun
  simp [symbolsFrom_symbol _ h, leafOf_spaces]

theorem Parting.space {rest : List (List Char)} (h : Parting rest) : Parting ([' '] :: rest) := by
  intro begun
  rw [symbolsFrom_space, symbolsFrom_space, h, h ([] ++ [' ']),
    leafOf_spaces ([] ++ [' ']) (by simp)]
  simp [leafOf, dropSpaces_append_space]

/-- The characters are read as the symbols, wherever nothing but spaces stands directly before
them and their last leaf ends with them. -/
def Lexes (cs : List Char) (read : List Symbol) : Prop :=
  ∀ spaces rest, (∀ c ∈ spaces, c = ' ') → Parting rest →
    symbolsFrom spaces (pieces cs ++ rest) = read ++ symbolsFrom [] rest

theorem PlainLeaf.lexes {text : String} (h : PlainLeaf text) : Lexes text.toList [.leaf text] := by
  intro spaces rest hspaces hrest
  rw [symbolsFrom_append _ _ _ h.ofPiece?_eq_none, flatten_pieces, hrest,
    h.leafOf_append spaces hspaces]

theorem Lexes.group {cs : List Char} {read : List Symbol} (h : Lexes cs read) :
    Lexes ('(' :: (cs ++ [')'])) (.opening :: (read ++ [.closing])) := by
  intro spaces rest hspaces hrest
  have hopening : Symbol.ofPiece? ['('] = some .opening := by decide
  have hclosing : Symbol.ofPiece? [')'] = some .closing := by decide
  rw [pieces_cons _ _ (by decide), pieces_append_cons _ _ _ (by decide), pieces_nil,
    List.cons_append, List.append_assoc, symbolsFrom_symbol _ hopening,
    leafOf_spaces spaces hspaces]
  simp only [List.cons_append, List.nil_append]
  rw [h [] _ (by simp) (parting_symbol hclosing rest), symbolsFrom_symbol _ hclosing,
    leafOf_spaces [] (by simp)]
  simp

theorem ofPiece?_keyword (connective : Connective) :
    Symbol.ofPiece? connective.keyword.toList = some (.connective connective) := by
  cases connective <;> decide

/-- A connective's word with a space behind it, in front of what has been printed. -/
theorem Lexes.headed {cs : List Char} {read : List Symbol} (h : Lexes cs read)
    (connective : Connective) :
    Lexes (connective.keyword.toList ++ ' ' :: cs) (.connective connective :: read) := by
  intro spaces rest hspaces hrest
  rw [pieces_append_cons _ _ _ (by decide), pieces_keyword, List.append_assoc, List.cons_append,
    List.nil_append, symbolsFrom_symbol _ (ofPiece?_keyword connective),
    leafOf_spaces spaces hspaces, List.cons_append, symbolsFrom_space]
  rw [h _ _ (by simp) hrest]
  simp

theorem Lexes.joined {left right : List Char} {readLeft readRight : List Symbol}
    (hl : Lexes left readLeft) (hr : Lexes right readRight) (connective : Connective) :
    Lexes (left ++ ' ' :: (connective.keyword.toList ++ ' ' :: right))
      (readLeft ++ .connective connective :: readRight) := by
  intro spaces rest hspaces hrest
  have hparting :
      Parting ([' '] :: (pieces (connective.keyword.toList ++ ' ' :: right) ++ rest)) := by
    apply Parting.space
    rw [pieces_append_cons _ _ _ (by decide), pieces_keyword]
    exact parting_symbol (ofPiece?_keyword connective) _
  rw [pieces_append_cons _ _ _ (by decide), List.append_assoc, List.cons_append,
    hl spaces _ hspaces hparting, symbolsFrom_space,
    hr.headed connective _ _ (by simp) hrest]
  simp

theorem Lexes.symbols_eq {text : String} {read : List Symbol} (h : Lexes text.toList read) :
    symbols text = read := by
  have hread := h [] [] (by simp) parting_nil
  simpa [symbols, symbolsFrom, leafOf_spaces] using hread

end GraphQuery.Formula
