import GraphQuery.Formula.Print
import Mathlib.Data.List.SplitBy

/-! # Words of query text

Text falls into words and single characters between them. A text without quotes, brackets and
words of connectives is never put in parentheses as an operand. -/

namespace GraphQuery.Formula

/-- The words of a text, and each character outside them by itself. -/
def pieces (cs : List Char) : List (List Char) :=
  cs.splitBy fun a b => isWordCharacter a && isWordCharacter b

/-- The connective that a word spells, in whatever case. -/
def connective? (word : List Char) : Option Connective :=
  [.and, .or, .xor, .not].find? fun connective => spells word connective.keyword

/-! ## Pieces -/

@[simp] theorem pieces_nil : pieces [] = [] := rfl

theorem flatten_pieces (cs : List Char) : (pieces cs).flatten = cs :=
  List.flatten_splitBy _ cs

theorem pieces_word (word : List Char) (hne : word ≠ [])
    (h : ∀ c ∈ word, isWordCharacter c = true) : pieces word = [word] := by
  apply List.splitBy_of_isChain hne
  rw [List.isChain_iff_getElem]
  intro i hi
  simp [h]

/-- A character outside all words parts the pieces before it from those behind. -/
theorem pieces_append_cons (cs rest : List Char) (c : Char) (hc : isWordCharacter c = false) :
    pieces (cs ++ c :: rest) = pieces cs ++ [c] :: pieces rest := by
  have hsingle : pieces (c :: rest) = [c] :: pieces rest := by
    have hsplit : pieces ([c] ++ rest) = pieces [c] ++ pieces rest := by
      apply List.splitBy_append
      simp [hc]
    simpa [pieces, List.splitBy, List.splitBy.loop] using hsplit
  rw [← hsingle]
  apply List.splitBy_append_cons
  simp [hc]

theorem pieces_cons (rest : List Char) (c : Char) (hc : isWordCharacter c = false) :
    pieces (c :: rest) = [c] :: pieces rest :=
  pieces_append_cons [] rest c hc

theorem pieces_keyword (connective : Connective) :
    pieces connective.keyword.toList = [connective.keyword.toList] := by
  cases connective <;> decide

/-! ## Connectives -/

theorem isConnectiveWord_eq_false (previous word : List Char) (h : connective? word = none) :
    isConnectiveWord previous word = false := by
  simp only [connective?, List.find?_eq_none, List.mem_cons, List.not_mem_nil, or_false,
    forall_eq_or_imp, forall_eq, Bool.not_eq_true] at h
  obtain ⟨hand, hor, hxor, hnot⟩ := h
  simp only [Connective.keyword] at hand hor hxor hnot
  simp [isConnectiveWord, hand, hor, hxor, hnot]

/-- The reader has the word before `cs` in hand, so it is the pieces from that word's beginning
that decide. -/
theorem connectiveAhead_eq_false (previous word cs : List Char)
    (hword : ∀ c ∈ word, isWordCharacter c = true) (hquote : ∀ c ∈ cs, isQuote c = false)
    (hbracket : ∀ c ∈ cs, opensBracket c = false ∧ closesBracket c = false)
    (hpieces : ∀ piece ∈ pieces (word.reverse ++ cs), connective? piece = none) :
    connectiveAhead 0 none previous word cs = false := by
  induction cs generalizing previous word with
  | nil =>
      rw [connectiveAhead, isConnectiveWord_eq_false]
      · simp
      · by_cases hnil : word = []
        · subst hnil
          decide
        · apply hpieces
          rw [List.append_nil, pieces_word _ (by simpa using hnil) (by simpa using hword)]
          simp
  | cons c rest ih =>
      have hq : ∀ d ∈ rest, isQuote d = false := fun d hd => hquote d (by simp [hd])
      have hb : ∀ d ∈ rest, opensBracket d = false ∧ closesBracket d = false :=
        fun d hd => hbracket d (by simp [hd])
      by_cases hc : isWordCharacter c = true
      · rw [connectiveAhead]
        simp only [hc, if_true]
        apply ih _ _ _ hq hb
        · simpa using hpieces
        · intro d hd
          rcases List.mem_cons.mp hd with rfl | hd
          · exact hc
          · exact hword d hd
      · have hc : isWordCharacter c = false := by simpa using hc
        rw [pieces_append_cons _ _ _ hc] at hpieces
        have hfront : isConnectiveWord previous word.reverse = false := by
          apply isConnectiveWord_eq_false
          by_cases hnil : word = []
          · subst hnil
            decide
          · apply hpieces
            rw [pieces_word _ (by simpa using hnil) (by simpa using hword)]
            simp
        obtain ⟨hopens, hcloses⟩ := hbracket c (by simp)
        rw [connectiveAhead]
        simp only [hc, hfront, hquote c (by simp), hopens, hcloses, Bool.and_false,
          Bool.false_eq_true, if_false]
        apply ih _ _ (by simp) hq hb
        intro piece hp
        exact hpieces piece (by simp [show piece ∈ pieces rest by simpa using hp])

end GraphQuery.Formula
