import GraphQuery.Proofs.Formula.Operand
import Mathlib.Data.List.DropRight

/-! # Connectives outside quotations and brackets

Query text falls into single characters and quotations. Where no quotation has its own mark inside,
the reader of words finds a connective exactly if a whole word outside all quotations and brackets
spells one. A mark behind a backslash does not end a string, but it does for the reader. -/

namespace GraphQuery.Formula

/-! ## Quotations -/

inductive Part
  | bare (c : Char)
  | quoted (mark : Char) (body : List Char)
  deriving DecidableEq

/-- A quotation goes on to the end of its body. In a string a backslash takes the next character
along, in a name it is a character like others. -/
inductive Encloses (mark : Char) : List Char → Prop
  | nil : Encloses mark []
  | escaped (c : Char) {body : List Char} (hstring : mark ≠ '\x60') (hbody : Encloses mark body) :
      Encloses mark ('\x5c' :: c :: body)
  | plain {c : Char} {body : List Char} (hc : c ≠ mark) (hname : c = '\x5c' → mark = '\x60')
      (hbody : Encloses mark body) : Encloses mark (c :: body)

instance Encloses.decidable (mark : Char) : (body : List Char) → Decidable (Encloses mark body)
  | [] => isTrue .nil
  | [c] =>
      decidable_of_iff (c ≠ mark ∧ (c = '\x5c' → mark = '\x60'))
        ⟨fun ⟨hc, hname⟩ => .plain hc hname .nil, fun h => by cases h with
          | plain hc hname hbody => exact ⟨hc, hname⟩⟩
  | c :: d :: body =>
      have := Encloses.decidable mark body
      have := Encloses.decidable mark (d :: body)
      decidable_of_iff (c = '\x5c' ∧ mark ≠ '\x60' ∧ Encloses mark body ∨
          c ≠ mark ∧ (c = '\x5c' → mark = '\x60') ∧ Encloses mark (d :: body))
        ⟨fun h => by
          rcases h with ⟨rfl, hstring, hbody⟩ | ⟨hc, hname, hbody⟩
          · exact .escaped d hstring hbody
          · exact .plain hc hname hbody,
        fun h => by cases h with
          | escaped _ hstring hbody => exact .inl ⟨rfl, hstring, hbody⟩
          | plain hc hname hbody => exact .inr ⟨hc, hname, hbody⟩⟩

namespace Part

def text : Part → List Char
  | .bare c => [c]
  | .quoted mark body => mark :: body ++ [mark]

def isWord : Part → Bool
  | .bare c => isWordCharacter c
  | .quoted _ _ => false

/-- Quotes stand only at the ends of quotations. -/
def Closed : Part → Prop
  | .bare c => isQuote c = false
  | .quoted mark body => isQuote mark = true ∧ Encloses mark body

/-- No quotation has its own mark inside. A closed one has it there only behind a backslash. -/
def Plain : Part → Prop
  | .bare _ => True
  | .quoted mark body => mark ∉ body

instance : DecidablePred Closed
  | .bare c => inferInstanceAs (Decidable (isQuote c = false))
  | .quoted mark body => inferInstanceAs (Decidable (isQuote mark = true ∧ Encloses mark body))

instance : DecidablePred Plain
  | .bare _ => isTrue trivial
  | .quoted mark body => inferInstanceAs (Decidable (mark ∉ body))

/-- The number of brackets open behind a part, `none` if it closes one that is not open. -/
def depth? (depth : Nat) : Part → Option Nat
  | .bare c =>
      if opensBracket c then some (depth + 1)
      else if closesBracket c then if depth = 0 then none else some (depth - 1)
      else some depth
  | .quoted _ _ => some depth

end Part

def bares (text : String) : List Part :=
  text.toList.map .bare

def nesting? (parts : List Part) : Option Nat :=
  parts.foldlM Part.depth? 0

/-- The quotations of a text are closed, and the brackets outside them balance, all kinds of
brackets taken together. -/
structure FallsInto (text : String) (parts : List Part) : Prop where
  text : text.toList = parts.flatMap Part.text
  closed : ∀ part ∈ parts, part.Closed
  balanced : nesting? parts = some 0

/-- A word of `parts`, between what stands before it and what stands behind it. It goes on to
neither side. -/
structure WordIn (parts before : List Part) (word : List Char) (after : List Part) : Prop where
  split : parts = before ++ word.map .bare ++ after
  nonempty : word ≠ []
  run : ∀ c ∈ word, isWordCharacter c = true
  starts : ∀ part ∈ before.getLast?, part.isWord = false
  ends : ∀ part ∈ after.head?, part.isWord = false

/-- The word that is nearest to the end of `parts`. -/
def LastWord (parts : List Part) (word : List Char) : Prop :=
  ∃ before after, WordIn parts before word after ∧ ∀ part ∈ after, part.isWord = false

/-- The word spells a connective. `NOT` is none if the nearest word before it is `IS`. -/
def SpellsConnective (before : List Part) (word : List Char) : Prop :=
  spells word "AND" ∨ spells word "OR" ∨ spells word "XOR" ∨
    spells word "NOT" ∧ ¬ ∃ previous, LastWord before previous ∧ spells previous "IS"

/-- A word outside all brackets, behind which `after` stands, spells a connective. -/
def ConnectiveEnds (parts after : List Part) : Prop :=
  ∃ before word, WordIn parts before word after ∧ nesting? before = some 0 ∧
    SpellsConnective before word

def HasConnectiveWord (parts : List Part) : Prop :=
  ∃ after, ConnectiveEnds parts after

/-! ## One text, one reading -/

theorem Encloses.unique {mark : Char} {body body' rest rest' : List Char}
    (hbody : Encloses mark body) (hbody' : Encloses mark body') (hmark : isQuote mark = true)
    (h : body ++ mark :: rest = body' ++ mark :: rest') : body = body' ∧ rest = rest' := by
  have hslash : mark ≠ '\x5c' := by
    rintro rfl
    simp [isQuote] at hmark
  induction hbody generalizing body' with
  | nil =>
      cases hbody' with
      | nil => simpa using h
      | escaped => exact absurd (List.cons.inj h).1 hslash
      | plain hc => exact absurd (List.cons.inj h).1.symm hc
  | escaped c hstring hbody ih =>
      cases hbody' with
      | nil => exact absurd (List.cons.inj h).1.symm hslash
      | escaped d hstring' hbody' =>
          simp only [List.cons_append, List.cons.injEq] at h
          obtain ⟨-, rfl, h⟩ := h
          obtain ⟨rfl, rfl⟩ := ih hbody' h
          exact ⟨rfl, rfl⟩
      | plain hc hname => exact absurd (hname (List.cons.inj h).1.symm) hstring
  | plain hc hname hbody ih =>
      cases hbody' with
      | nil => exact absurd (List.cons.inj h).1 hc
      | escaped d hstring => exact absurd (hname (List.cons.inj h).1) hstring
      | plain hc' hname' hbody' =>
          simp only [List.cons_append, List.cons.injEq] at h
          obtain ⟨rfl, h⟩ := h
          obtain ⟨rfl, rfl⟩ := ih hbody' h
          exact ⟨rfl, rfl⟩

theorem Part.text_unique {part part' : Part} {rest rest' : List Char} (h : part.Closed)
    (h' : part'.Closed) (htext : part.text ++ rest = part'.text ++ rest') :
    part = part' ∧ rest = rest' := by
  cases part with
  | bare c =>
      cases part' with
      | bare d => simpa [text] using htext
      | quoted mark body =>
          obtain ⟨rfl, -⟩ := List.cons.inj htext
          exact absurd h'.1 (Bool.eq_false_iff.mp h)
  | quoted mark body =>
      cases part' with
      | bare d =>
          obtain ⟨rfl, -⟩ := List.cons.inj htext
          exact absurd h.1 (Bool.eq_false_iff.mp h')
      | quoted mark' body' =>
          simp only [text, List.cons_append, List.append_assoc, List.cons.injEq,
            List.nil_append] at htext
          obtain ⟨rfl, htext⟩ := htext
          obtain ⟨rfl, rfl⟩ := h.2.unique h'.2 h.1 htext
          exact ⟨rfl, rfl⟩

/-- A text falls into quotations in one way at most. -/
theorem FallsInto.unique {text : String} {parts parts' : List Part} (h : FallsInto text parts)
    (h' : FallsInto text parts') : parts = parts' := by
  have htext := h.text.symm.trans h'.text
  have hclosed := h.closed
  have hclosed' := h'.closed
  clear h h'
  induction parts generalizing parts' with
  | nil =>
      cases parts' with
      | nil => rfl
      | cons part parts' => cases part <;> simp [Part.text] at htext
  | cons part parts ih =>
      cases parts' with
      | nil => cases part <;> simp [Part.text] at htext
      | cons part' parts' =>
          simp only [List.flatMap_cons] at htext
          obtain ⟨hpart, hparts⟩ := List.forall_mem_cons.mp hclosed
          obtain ⟨hpart', hparts'⟩ := List.forall_mem_cons.mp hclosed'
          obtain ⟨rfl, hrest⟩ := Part.text_unique hpart hpart' htext
          rw [ih hrest hparts hparts']

/-! ## Words and what stands before them -/

theorem rdropWhile_append {α : Type*} (p : α → Bool) {xs ys : List α}
    (hxs : ∀ x ∈ xs.getLast?, p x = false) (hys : ∀ y ∈ ys, p y = true) :
    (xs ++ ys).rdropWhile p = xs := by
  have hkept : xs.rdropWhile p = xs := by
    rw [List.rdropWhile_eq_self_iff]
    intro hne
    simp [hxs _ (List.getLast?_eq_getLast_of_ne_nil hne)]
  rw [List.rdropWhile, List.reverse_append, List.dropWhile_append_of_pos (by simpa using hys)]
  exact hkept

theorem isWord_map_bare {word : List Char} (hrun : ∀ c ∈ word, isWordCharacter c = true) :
    ∀ part ∈ word.map Part.bare, part.isWord = true := by
  simpa [Part.isWord] using hrun

/-- The word at the end of `parts` begins where no word character goes before it. -/
theorem word_unique {before before' : List Part} {word word' : List Char}
    (h : before ++ word.map Part.bare = before' ++ word'.map Part.bare)
    (hrun : ∀ c ∈ word, isWordCharacter c = true) (hrun' : ∀ c ∈ word', isWordCharacter c = true)
    (hstarts : ∀ part ∈ before.getLast?, part.isWord = false)
    (hstarts' : ∀ part ∈ before'.getLast?, part.isWord = false) :
    before = before' ∧ word = word' := by
  have hbefore : before = before' := by
    rw [← rdropWhile_append Part.isWord hstarts (isWord_map_bare hrun), h,
      rdropWhile_append Part.isWord hstarts' (isWord_map_bare hrun')]
  subst hbefore
  exact ⟨rfl, List.map_injective_iff.mpr (fun _ _ => Part.bare.inj) (List.append_cancel_left h)⟩

theorem WordIn.getLast?_isWord {parts before after : List Part} {word : List Char}
    (h : WordIn parts before word after) :
    ∀ part ∈ (before ++ word.map Part.bare).getLast?, part.isWord = true := by
  intro part hpart
  rw [List.getLast?_append_of_ne_nil _ (by simpa using h.nonempty)] at hpart
  exact isWord_map_bare h.run part (List.mem_of_mem_getLast? hpart)

theorem WordIn.rdropWhile_eq {parts before after : List Part} {word : List Char}
    (h : WordIn parts before word after) (hafter : ∀ part ∈ after, part.isWord = false) :
    parts.rdropWhile (!Part.isWord ·) = before ++ word.map Part.bare := by
  rw [h.split]
  exact rdropWhile_append _ (by simpa using h.getLast?_isWord) (by simpa using hafter)

theorem LastWord.unique {parts : List Part} {word word' : List Char} (h : LastWord parts word)
    (h' : LastWord parts word') : word = word' := by
  obtain ⟨before, after, hword, hafter⟩ := h
  obtain ⟨before', after', hword', hafter'⟩ := h'
  have hsplit : before ++ word.map Part.bare = before' ++ word'.map Part.bare :=
    (hword.rdropWhile_eq hafter).symm.trans (hword'.rdropWhile_eq hafter')
  exact (word_unique hsplit hword.run hword'.run hword.starts hword'.starts).2

theorem LastWord.exists_isWord {parts : List Part} {word : List Char} (h : LastWord parts word) :
    ∃ part ∈ parts, part.isWord = true := by
  obtain ⟨before, after, hword, -⟩ := h
  obtain ⟨c, hc⟩ := List.exists_mem_of_ne_nil word hword.nonempty
  exact ⟨.bare c, by simp [hword.split, hc], hword.run c hc⟩

theorem LastWord.concat {parts : List Part} {word : List Char} (h : LastWord parts word)
    {part : Part} (hpart : part.isWord = false) : LastWord (parts ++ [part]) word := by
  obtain ⟨before, after, hword, hafter⟩ := h
  refine ⟨before, after ++ [part], ⟨?_, hword.nonempty, hword.run, hword.starts, ?_⟩, ?_⟩
  · simp [hword.split]
  · cases after with
    | nil => simpa using hpart
    | cons next after => simpa using hword.ends
  · simpa [or_imp, forall_and] using ⟨hafter, hpart⟩

theorem SpellsConnective.ne_nil {before : List Part} {word : List Char}
    (h : SpellsConnective before word) : word ≠ [] := by
  rintro rfl
  rcases h with h | h | h | ⟨h, -⟩ <;> exact absurd h (by decide)

/-! ## Nesting -/

theorem nesting?_append (parts rest : List Part) :
    nesting? (parts ++ rest) =
      (nesting? parts).bind fun depth => rest.foldlM Part.depth? depth := by
  simp [nesting?]

theorem nesting?_concat (parts : List Part) (part : Part) :
    nesting? (parts ++ [part]) = (nesting? parts).bind (Part.depth? · part) := by
  simp [nesting?_append]

theorem not_bracket {c : Char} (hc : isWordCharacter c = true) :
    opensBracket c = false ∧ closesBracket c = false := by
  constructor <;> rw [Bool.eq_false_iff] <;> intro hbracket
  · simp only [opensBracket, Bool.or_eq_true, beq_iff_eq] at hbracket
    rcases hbracket with (rfl | rfl) | rfl <;> exact absurd hc (by decide)
  · simp only [closesBracket, Bool.or_eq_true, beq_iff_eq] at hbracket
    rcases hbracket with (rfl | rfl) | rfl <;> exact absurd hc (by decide)

theorem isQuote_eq_true {mark : Char} (h : isQuote mark = true) :
    isWordCharacter mark = false ∧ opensBracket mark = false ∧ closesBracket mark = false := by
  simp only [isQuote, Bool.or_eq_true, beq_iff_eq] at h
  rcases h with (rfl | rfl) | rfl <;> decide

theorem nesting?_word (before : List Part) {word : List Char}
    (hrun : ∀ c ∈ word, isWordCharacter c = true) :
    nesting? (before ++ word.map Part.bare) = nesting? before := by
  induction word generalizing before with
  | nil => simp
  | cons c word ih =>
      obtain ⟨hc, hword⟩ := List.forall_mem_cons.mp hrun
      have hnext := ih (before ++ [.bare c]) hword
      rw [List.append_assoc] at hnext
      rw [List.map_cons, ← List.singleton_append, hnext, nesting?_concat]
      simp [Part.depth?, not_bracket hc]

/-! ## The reader -/

/-- What the reader of words has in hand outside quotations: the number of open brackets, the word
before, and the word that it reads, its last character first. -/
structure Reader where
  depth : Nat
  previous : List Char
  word : List Char

namespace Reader

def finds (r : Reader) (cs : List Char) : Bool :=
  connectiveAhead r.depth none r.previous r.word cs

/-- Whether the reader stops if the word ends here. -/
def stops (r : Reader) : Bool :=
  r.depth == 0 && isConnectiveWord r.previous r.word.reverse

def extend (r : Reader) (c : Char) : Reader :=
  { r with word := c :: r.word }

/-- The reader behind a part that ends its word. -/
def pass (r : Reader) (part : Part) : Reader where
  depth := (part.depth? r.depth).getD 0
  previous := if r.word.isEmpty then r.previous else r.word.reverse
  word := []

theorem finds_nil (r : Reader) : r.finds [] = r.stops := by
  simp [finds, stops, connectiveAhead]

theorem finds_word (r : Reader) {c : Char} (hc : isWordCharacter c = true) (cs : List Char) :
    r.finds (c :: cs) = (r.extend c).finds cs := by
  simp [finds, extend, connectiveAhead, hc]

theorem connectiveAhead_quoted (depth : Nat) (previous : List Char) {mark : Char}
    {body : List Char} (hbody : mark ∉ body) (cs : List Char) :
    connectiveAhead depth (some mark) previous [] (body ++ mark :: cs) =
      connectiveAhead depth none previous [] cs := by
  induction body with
  | nil => simp [connectiveAhead]
  | cons c body ih =>
      rw [List.mem_cons, not_or] at hbody
      simp [connectiveAhead, Ne.symm hbody.1, ih hbody.2]

theorem finds_pass (r : Reader) {part : Part} (hclosed : part.Closed) (hplain : part.Plain)
    (hword : part.isWord = false) (cs : List Char) :
    r.finds (part.text ++ cs) = (r.stops || (r.pass part).finds cs) := by
  cases part with
  | bare c =>
      have hc : isWordCharacter c = false := hword
      have hquote : isQuote c = false := hclosed
      have hdepth : ((Part.bare c).depth? r.depth).getD 0 =
          if opensBracket c then r.depth + 1
          else if closesBracket c then r.depth - 1 else r.depth := by
        rw [Part.depth?]
        split
        · rfl
        · split
          · split <;> simp_all
          · rfl
      simp only [finds, Part.text, List.singleton_append, connectiveAhead, hc, hquote, pass, hdepth,
        Bool.false_eq_true, if_false]
      rw [stops]
      cases r.depth == 0 && isConnectiveWord r.previous r.word.reverse <;> simp
  | quoted mark body =>
      obtain ⟨hmark, -⟩ := hclosed
      obtain ⟨hword, hopens, hcloses⟩ := isQuote_eq_true hmark
      simp only [finds, Part.text, List.cons_append, List.append_assoc, List.nil_append,
        connectiveAhead, hword, hmark, hopens, hcloses, pass, Part.depth?, Option.getD_some,
        Bool.false_eq_true, if_false, if_true, connectiveAhead_quoted _ _ hplain]
      rw [stops]
      cases r.depth == 0 && isConnectiveWord r.previous r.word.reverse <;> simp

end Reader

/-- The word in hand is what was read last, and `front` is what was read before it. -/
structure Reader.Knows (r : Reader) (before front : List Part) : Prop where
  split : before = front ++ r.word.reverse.map .bare
  run : ∀ c ∈ r.word, isWordCharacter c = true
  starts : ∀ part ∈ front.getLast?, part.isWord = false
  depth : nesting? before = some r.depth
  previous : LastWord front r.previous ∨ r.previous = [] ∧ ∀ part ∈ front, part.isWord = false

namespace Reader.Knows

variable {r : Reader} {before front : List Part}

theorem extend (h : r.Knows before front) {c : Char} (hc : isWordCharacter c = true) :
    (r.extend c).Knows (before ++ [.bare c]) front where
  split := by simp [Reader.extend, h.split]
  run := List.forall_mem_cons.mpr ⟨hc, h.run⟩
  starts := h.starts
  depth := by simp [nesting?_concat, h.depth, Part.depth?, not_bracket hc, Reader.extend]
  previous := h.previous

theorem pass (h : r.Knows before front) {part : Part} (hpart : part.isWord = false)
    {depth : Nat} (hdepth : nesting? (before ++ [part]) = some depth) :
    (r.pass part).Knows (before ++ [part]) (before ++ [part]) where
  split := by simp [Reader.pass]
  run := by simp [Reader.pass]
  starts := by simpa using hpart
  depth := by
    rw [nesting?_concat, h.depth, Option.bind_some] at hdepth
    simp [nesting?_concat, h.depth, hdepth, Reader.pass]
  previous := by
    by_cases hnil : r.word = []
    · have hbefore : before = front := by simpa [hnil] using h.split
      rw [hbefore]
      rcases h.previous with hlast | ⟨hprevious, hnone⟩
      · exact .inl (by simpa [Reader.pass, hnil] using hlast.concat hpart)
      · refine .inr ⟨by simp [Reader.pass, hnil, hprevious], ?_⟩
        simpa [or_imp, forall_and] using ⟨hnone, hpart⟩
    · have hends : ∀ next ∈ [part], next.isWord = false := List.forall_mem_singleton.mpr hpart
      refine .inl ⟨front, [part], ⟨?_, ?_, ?_, h.starts, by simpa using hpart⟩, hends⟩
      · simp [Reader.pass, hnil, h.split]
      · simp [Reader.pass, hnil]
      · simpa [Reader.pass, hnil] using h.run

/-- A connective ends where the reader is if and only if the reader stops there. -/
theorem connectiveEnds_iff (h : r.Knows before front) (after : List Part)
    (hafter : ∀ part ∈ after.head?, part.isWord = false) :
    ConnectiveEnds (before ++ after) after ↔ r.stops = true := by
  have hfront : nesting? front = some r.depth := by
    rw [← h.depth, h.split, nesting?_word front (by simpa using h.run)]
  have hprevious : (∃ previous, LastWord front previous ∧ spells previous "IS" = true) ↔
      spells r.previous "IS" = true := by
    rcases h.previous with hlast | ⟨hnil, hnone⟩
    · exact ⟨fun ⟨_, hlast', his⟩ => hlast.unique hlast' ▸ his, fun his => ⟨_, hlast, his⟩⟩
    · have hnever : ¬ ∃ previous, LastWord front previous ∧ spells previous "IS" = true := by
        rintro ⟨previous, hlast, -⟩
        obtain ⟨part, hpart, hword⟩ := hlast.exists_isWord
        simp [hnone part hpart] at hword
      exact iff_of_false hnever (by rw [hnil]; decide)
  have hspells : SpellsConnective front r.word.reverse ↔
      isConnectiveWord r.previous r.word.reverse = true := by
    simp [SpellsConnective, isConnectiveWord, hprevious, or_assoc]
  rw [Reader.stops, Bool.and_eq_true, beq_iff_eq, ← hspells]
  constructor
  · rintro ⟨before', word', hword', hnesting, hspelled⟩
    have hsplit : front ++ r.word.reverse.map Part.bare = before' ++ word'.map Part.bare := by
      rw [← h.split]
      exact List.append_cancel_right hword'.split
    obtain ⟨rfl, rfl⟩ :=
      word_unique hsplit (by simpa using h.run) hword'.run h.starts hword'.starts
    rw [hfront] at hnesting
    exact ⟨by simpa using hnesting, hspelled⟩
  · rintro ⟨hdepth, hspelled⟩
    exact ⟨front, r.word.reverse,
      ⟨by rw [h.split], hspelled.ne_nil, by simpa using h.run, h.starts, hafter⟩,
      by rw [hfront, hdepth], hspelled⟩

end Reader.Knows

/-- The reader finds a connective in what is to come if and only if one ends there. -/
theorem Reader.Knows.finds_iff {r : Reader} {before front rest : List Part}
    (h : r.Knows before front) (hclosed : ∀ part ∈ rest, part.Closed)
    (hplain : ∀ part ∈ rest, part.Plain) {depth : Nat}
    (hdepth : nesting? (before ++ rest) = some depth) :
    r.finds (rest.flatMap Part.text) = true ↔
      ∃ after, after <:+ rest ∧ ConnectiveEnds (before ++ rest) after := by
  induction rest generalizing r before front with
  | nil => simp [Reader.finds_nil, ← h.connectiveEnds_iff [] (by simp)]
  | cons part rest ih =>
      obtain ⟨hpart, hrest⟩ := List.forall_mem_cons.mp hclosed
      obtain ⟨hpartPlain, hrestPlain⟩ := List.forall_mem_cons.mp hplain
      have hsplit : before ++ part :: rest = before ++ [part] ++ rest := by simp
      rw [List.flatMap_cons]
      cases hword : part.isWord with
      | true =>
          obtain ⟨c, rfl, hc⟩ : ∃ c, part = .bare c ∧ isWordCharacter c = true := by
            cases part with
            | bare c => exact ⟨c, rfl, hword⟩
            | quoted mark body => simp [Part.isWord] at hword
          have hnone : ¬ ConnectiveEnds (before ++ .bare c :: rest) (.bare c :: rest) := by
            rintro ⟨_, _, hends, -⟩
            simpa [hword] using hends.ends
          have hfinds := ih (h.extend hc) hrest hrestPlain (by rwa [← hsplit])
          rw [← hsplit] at hfinds
          simp [Part.text, r.finds_word hc, hfinds, List.suffix_cons_iff, or_and_right, exists_or,
            hnone]
      | false =>
          have hnext : ∃ depth, nesting? (before ++ [part]) = some depth := by
            rw [hsplit, nesting?_append] at hdepth
            obtain ⟨depth, hnesting, -⟩ := Option.bind_eq_some_iff.mp hdepth
            exact ⟨depth, hnesting⟩
          obtain ⟨_, hnext⟩ := hnext
          have hfinds := ih (h.pass hword hnext) hrest hrestPlain (by rwa [← hsplit])
          rw [← hsplit] at hfinds
          have hends := h.connectiveEnds_iff (part :: rest) (by simpa using hword)
          simp [r.finds_pass hpart hpartPlain hword, hfinds, List.suffix_cons_iff, or_and_right,
            exists_or, hends]

/-- If no quotation of a text has its own mark inside, the reader finds a connective in the text if
and only if a whole word outside all quotations and brackets spells one. -/
theorem hasConnective_iff {text : String} {parts : List Part} (h : FallsInto text parts)
    (hplain : ∀ part ∈ parts, part.Plain) :
    hasConnective text = true ↔ HasConnectiveWord parts := by
  have hstart : (Reader.mk 0 [] []).Knows [] [] :=
    ⟨rfl, by simp, by simp, rfl, .inr ⟨rfl, by simp⟩⟩
  have hfinds := hstart.finds_iff h.closed hplain h.balanced
  rw [← h.text] at hfinds
  rw [hasConnective]
  refine hfinds.trans ⟨fun ⟨after, _, hends⟩ => ⟨after, hends⟩, ?_⟩
  rintro ⟨after, before, word, hword, hends⟩
  exact ⟨after, ⟨_, hword.split.symm⟩, before, word, hword, hends⟩

def quotedTest : List Part :=
  bares "any(x IN y WHERE x = " ++ .quoted '\x27' "a AND b".toList :: bares ") OR c IS NOT NULL"

theorem fallsInto_quotedTest :
    FallsInto "any(x IN y WHERE x = \x27a AND b\x27) OR c IS NOT NULL" quotedTest where
  text := by decide
  closed := by decide
  balanced := by decide

theorem hasConnective_iff_quotedTest :
    FallsInto "any(x IN y WHERE x = \x27a AND b\x27) OR c IS NOT NULL" quotedTest ∧
    (∀ part ∈ quotedTest, part.Plain) ∧
    (hasConnective "any(x IN y WHERE x = \x27a AND b\x27) OR c IS NOT NULL" = true ↔
      HasConnectiveWord quotedTest) := by
  have hplain : ∀ part ∈ quotedTest, part.Plain := by decide
  exact ⟨fallsInto_quotedTest, hplain, hasConnective_iff fallsInto_quotedTest hplain⟩

/-- A string of one quote, which a backslash goes before, and a connective behind the string. -/
def escapedQuote : List Part :=
  bares "a = " ++ .quoted '\x27' ['\x5c', '\x27'] :: bares " OR b"

theorem hasConnectiveWord_escapedQuote : HasConnectiveWord escapedQuote :=
  ⟨bares " b", bares "a = " ++ [.quoted '\x27' ['\x5c', '\x27'], .bare ' '], "OR".toList,
    ⟨by decide, by decide, by decide, by decide, by decide⟩, by decide, .inr (.inl (by decide))⟩

/-- To the reader the string begins again where it ends, so that it hides the connective, and the
text is an operand of `AND` without parentheses. -/
theorem connective_hidden_escapedQuote :
    FallsInto "a = \x27\x5c\x27\x27 OR b" escapedQuote ∧
    (∀ parts, FallsInto "a = \x27\x5c\x27\x27 OR b" parts → HasConnectiveWord parts) ∧
    hasConnective "a = \x27\x5c\x27\x27 OR b" = false ∧
    (plug [⟨.and, [], [.raw "d"]⟩] (.raw "a = \x27\x5c\x27\x27 OR b")).print =
      "a = \x27\x5c\x27\x27 OR b AND d" := by
  have hfalls : FallsInto "a = \x27\x5c\x27\x27 OR b" escapedQuote :=
    ⟨by decide, by decide, by decide⟩
  refine ⟨hfalls, fun parts hparts => ?_, by decide, by decide⟩
  rw [hparts.unique hfalls]
  exact hasConnectiveWord_escapedQuote

end GraphQuery.Formula
