import GraphQuery.Clause.Placement
import Mathlib.Computability.Language

/-! # The grammar of sequences

Which keywords may come after one another, as a table of predecessors has it, and which sequences
are made of whole blocks, as the query language has it. The two agree. -/

namespace GraphQuery

namespace Keyword

open scoped Computability

/-! ## Blocks -/

/-- At most one clause of a kind. -/
def optional (keyword : Keyword) : Language Keyword := 1 + {[keyword]}

def outcome : Language Keyword := {[.onMatch]} + {[.onCreate]}

def merging : Language Keyword := {[.merge]} * outcome∗

def projecting : Language Keyword :=
  ({[.withColumns]} + {[.returnColumns]}) * (optional .orderBy * (optional .skip * optional .limit))

/-- The keywords that only make a block together with others, or may be followed by some. -/
def attached : List Keyword :=
  [.merge, .withColumns, .returnColumns, .onMatch, .onCreate, .orderBy, .skip, .limit]

def standing : Language Keyword := {keywords | ∃ keyword ∉ attached, keywords = [keyword]}

def block : Language Keyword := merging + projecting + standing

def sequences : Language Keyword := block∗

/-! ## Neighbours -/

/-- Each keyword may come after the one in front of it, the first after `previous`. -/
def Follows (previous : Option Keyword) : List Keyword → Prop
  | [] => True
  | keyword :: rest => keyword.mayFollow previous = true ∧ Follows (some keyword) rest

theorem Follows.of_append {previous : Option Keyword} {keywords later : List Keyword}
    (h : Follows previous (keywords ++ later)) : Follows previous keywords := by
  induction keywords generalizing previous with
  | nil => trivial
  | cons first rest ih => exact ⟨h.1, ih h.2⟩

theorem follows_concat {previous : Option Keyword} (keywords : List Keyword) (keyword : Keyword) :
    Follows previous (keywords ++ [keyword]) ↔
      Follows previous keywords ∧
        keyword.mayFollow (keywords.getLast?.or previous) = true := by
  induction keywords generalizing previous with
  | nil => simp [Follows]
  | cons first rest ih =>
      have hlast : (first :: rest).getLast?.or previous = rest.getLast?.or (some first) := by
        rw [List.getLast?_cons]
        cases rest.getLast? <;> rfl
      rw [List.cons_append, Follows, Follows, ih, hlast, and_assoc]

/-- The modifiers with which the block of `previous` can go on. -/
def tails : Option Keyword → Language Keyword
  | some .merge | some .onMatch | some .onCreate => outcome∗
  | some .withColumns | some .returnColumns =>
      optional .orderBy * (optional .skip * optional .limit)
  | some .orderBy => optional .skip * optional .limit
  | some .skip => optional .limit
  | _ => 1

theorem skipped_mem {language : Language Keyword} {keyword : Keyword} {keywords : List Keyword}
    (h : keywords ∈ language) : keywords ∈ optional keyword * language :=
  ⟨[], .inl rfl, keywords, h, rfl⟩

theorem taken_mem {language : Language Keyword} {keyword : Keyword} {keywords : List Keyword}
    (h : keywords ∈ language) : keyword :: keywords ∈ optional keyword * language :=
  ⟨[keyword], .inr rfl, keywords, h, rfl⟩

theorem cons_outcome {keyword : Keyword} {keywords : List Keyword} (hkeyword : [keyword] ∈ outcome)
    (h : keywords ∈ outcome∗) : keyword :: keywords ∈ outcome∗ :=
  mul_kstar_le_kstar (a := outcome) (Language.append_mem_mul hkeyword h)

theorem nil_mem_tails (previous : Option Keyword) : [] ∈ tails previous := by
  unfold tails
  split
  · exact Language.nil_mem_kstar outcome
  · exact Language.nil_mem_kstar outcome
  · exact Language.nil_mem_kstar outcome
  · exact skipped_mem (skipped_mem (.inl rfl))
  · exact skipped_mem (skipped_mem (.inl rfl))
  · exact skipped_mem (.inl rfl)
  · exact .inl rfl
  · rfl

/-- A keyword that needs no other in front of it opens a block. -/
theorem cons_mem_block {keyword : Keyword} {keywords : List Keyword}
    (hfree : keyword.predecessors? = none) (h : keywords ∈ tails (some keyword)) :
    keyword :: keywords ∈ block := by
  by_cases hattached : keyword ∈ attached
  · simp only [attached, List.mem_cons, List.not_mem_nil, or_false] at hattached
    rcases hattached with rfl | rfl | rfl | rfl | rfl | rfl | rfl | rfl
    · exact .inl (.inl ⟨[.merge], rfl, keywords, h, rfl⟩)
    · exact .inl (.inr ⟨[.withColumns], .inl rfl, keywords, h, rfl⟩)
    · exact .inl (.inr ⟨[.returnColumns], .inr rfl, keywords, h, rfl⟩)
    all_goals cases hfree
  · have hnil : keywords = [] := by
      revert hattached h
      cases keyword <;> simp [attached, tails]
    exact .inr ⟨keyword, hattached, by rw [hnil]⟩

theorem exists_predecessor {keyword : Keyword} {previous : Option Keyword}
    (hbound : keyword.predecessors? ≠ none) (hmay : keyword.mayFollow previous = true) :
    ∃ before ∈ keyword.predecessors?.getD [], previous = some before := by
  unfold mayFollow at hmay
  cases hallowed : keyword.predecessors? with
  | none => exact absurd hallowed hbound
  | some allowed =>
      simp only [hallowed] at hmay
      obtain ⟨before, hprevious, hbefore⟩ := (Option.any_eq_true _ _).mp hmay
      exact ⟨before, List.contains_iff_mem.mp hbefore, hprevious⟩

/-- A modifier goes on with the block of any keyword it may follow. -/
theorem cons_mem_tails {keyword : Keyword} {previous : Option Keyword} {keywords : List Keyword}
    (hbound : keyword.predecessors? ≠ none) (hmay : keyword.mayFollow previous = true)
    (h : keywords ∈ tails (some keyword)) : keyword :: keywords ∈ tails previous := by
  obtain ⟨before, hbefore, rfl⟩ := exists_predecessor hbound hmay
  cases keyword <;>
    simp only [predecessors?, Option.getD_some, Option.getD_none, List.mem_cons,
      List.not_mem_nil, or_false] at hbefore
  case onMatch => rcases hbefore with rfl | rfl | rfl <;> exact cons_outcome (.inl rfl) h
  case onCreate => rcases hbefore with rfl | rfl | rfl <;> exact cons_outcome (.inr rfl) h
  case orderBy => rcases hbefore with rfl | rfl <;> exact taken_mem h
  case skip =>
    rcases hbefore with rfl | rfl | rfl
    · exact skipped_mem (taken_mem h)
    · exact skipped_mem (taken_mem h)
    · exact taken_mem h
  case limit =>
    have hlimit : .limit :: keywords ∈ optional .limit := .inr (congrArg (Keyword.limit :: ·) h)
    rcases hbefore with rfl | rfl | rfl | rfl
    · exact skipped_mem (skipped_mem hlimit)
    · exact skipped_mem (skipped_mem hlimit)
    · exact skipped_mem hlimit
    · exact hlimit

/-- What follows a keyword goes on with its block, and then there are whole blocks. -/
theorem Follows.mem_tails {previous : Option Keyword} {keywords : List Keyword}
    (h : Follows previous keywords) : keywords ∈ tails previous * sequences := by
  induction keywords generalizing previous with
  | nil => exact ⟨[], nil_mem_tails previous, [], Language.nil_mem_kstar block, rfl⟩
  | cons keyword rest ih =>
      obtain ⟨hmay, hrest⟩ := h
      obtain ⟨modifiers, hmodifiers, blocks, hblocks, rfl⟩ := ih hrest
      by_cases hfree : keyword.predecessors? = none
      · have hblock : keyword :: modifiers ∈ block := cons_mem_block hfree hmodifiers
        have hall : (keyword :: modifiers) ++ blocks ∈ sequences :=
          mul_kstar_le_kstar (a := block) (Language.append_mem_mul hblock hblocks)
        exact ⟨[], nil_mem_tails previous, _, hall, rfl⟩
      · exact ⟨keyword :: modifiers, cons_mem_tails hfree hmay hmodifiers, blocks, hblocks, rfl⟩

/-! ## Blocks have the right neighbours -/

/-- The keywords may stand anywhere. -/
def Free (keywords : List Keyword) : Prop := ∀ previous, Follows previous keywords

theorem follows_outcomes {keywords rest : List Keyword} (hrest : Free rest)
    (h : keywords ∈ outcome∗) {previous : Keyword}
    (hprevious : previous ∈ [.merge, .onMatch, .onCreate]) :
    Follows (some previous) (keywords ++ rest) := by
  obtain ⟨parts, rfl, hparts⟩ := h
  induction parts generalizing previous with
  | nil => exact hrest (some previous)
  | cons part parts ih =>
      obtain ⟨hpart, hlater⟩ := List.forall_mem_cons.mp hparts
      have hmay : ∀ keyword : Keyword, keyword.predecessors? = some [.merge, .onMatch, .onCreate] →
          keyword.mayFollow (some previous) = true := by
        intro keyword hallowed
        simp only [mayFollow, hallowed]
        exact List.contains_iff_mem.mpr hprevious
      rcases hpart with rfl | rfl
      · exact ⟨hmay .onMatch rfl, ih (by simp) hlater⟩
      · exact ⟨hmay .onCreate rfl, ih (by simp) hlater⟩

theorem follows_optional {keyword : Keyword} {previous : Option Keyword}
    {language : Language Keyword} {keywords rest : List Keyword}
    (hmay : keyword.mayFollow previous = true)
    (hskipped : ∀ later ∈ language, Follows previous (later ++ rest))
    (htaken : ∀ later ∈ language, Follows (some keyword) (later ++ rest))
    (h : keywords ∈ optional keyword * language) : Follows previous (keywords ++ rest) := by
  obtain ⟨_, rfl | rfl, later, hlater, rfl⟩ := h
  · exact hskipped later hlater
  · exact ⟨hmay, htaken later hlater⟩

theorem follows_limit {previous : Option Keyword} {keywords rest : List Keyword}
    (hrest : Free rest) (hlimit : mayFollow .limit previous = true)
    (h : keywords ∈ optional .limit) : Follows previous (keywords ++ rest) := by
  rcases h with rfl | rfl
  · exact hrest previous
  · exact ⟨hlimit, hrest (some .limit)⟩

theorem follows_skip {previous : Option Keyword} {keywords rest : List Keyword}
    (hrest : Free rest) (hskip : mayFollow .skip previous = true)
    (hlimit : mayFollow .limit previous = true) (h : keywords ∈ optional .skip * optional .limit) :
    Follows previous (keywords ++ rest) :=
  follows_optional hskip (fun _ hlater => follows_limit hrest hlimit hlater)
    (fun _ hlater => follows_limit hrest rfl hlater) h

theorem follows_order {previous : Option Keyword} {keywords rest : List Keyword}
    (hrest : Free rest) (horder : mayFollow .orderBy previous = true)
    (hskip : mayFollow .skip previous = true) (hlimit : mayFollow .limit previous = true)
    (h : keywords ∈ optional .orderBy * (optional .skip * optional .limit)) :
    Follows previous (keywords ++ rest) :=
  follows_optional horder (fun _ hlater => follows_skip hrest hskip hlimit hlater)
    (fun _ hlater => follows_skip hrest rfl rfl hlater) h

theorem free_block_append {keywords rest : List Keyword} (hblock : keywords ∈ block)
    (hrest : Free rest) : Free (keywords ++ rest) := by
  intro previous
  rcases hblock with (⟨_, rfl, later, hlater, rfl⟩ | ⟨_, hverb, later, hlater, rfl⟩) |
    ⟨keyword, hattached, rfl⟩
  · exact ⟨rfl, follows_outcomes hrest hlater (by simp)⟩
  · rcases hverb with rfl | rfl
    · exact ⟨rfl, follows_order hrest rfl rfl rfl hlater⟩
    · exact ⟨rfl, follows_order hrest rfl rfl rfl hlater⟩
  · have hmay : keyword.mayFollow previous = true := by
      revert hattached
      cases keyword <;> simp [attached, mayFollow, predecessors?]
    exact ⟨hmay, hrest (some keyword)⟩

theorem free_of_mem_sequences {keywords : List Keyword} (h : keywords ∈ sequences) :
    Free keywords := by
  obtain ⟨blocks, rfl, hblocks⟩ := h
  induction blocks with
  | nil => exact fun _ => trivial
  | cons first rest ih =>
      obtain ⟨hfirst, hrest⟩ := List.forall_mem_cons.mp hblocks
      exact free_block_append hfirst (ih hrest)

/-! ## The two agree -/

theorem follows_iff_mem_sequences (keywords : List Keyword) :
    Follows none keywords ↔ keywords ∈ sequences := by
  constructor
  · intro h
    obtain ⟨_, rfl, blocks, hblocks, rfl⟩ := h.mem_tails
    exact hblocks
  · exact fun h => free_of_mem_sequences h none

/-- Nothing has to come after what is there. -/
theorem mem_sequences_of_append {keywords later : List Keyword}
    (h : keywords ++ later ∈ sequences) : keywords ∈ sequences := by
  rw [← follows_iff_mem_sequences] at h ⊢
  exact h.of_append

/-- A sequence goes on with a keyword that may come after its last. -/
theorem concat_mem_sequences_iff {keywords : List Keyword} (h : keywords ∈ sequences)
    (keyword : Keyword) :
    keywords ++ [keyword] ∈ sequences ↔ keyword.mayFollow keywords.getLast? = true := by
  have hfollows := (follows_iff_mem_sequences keywords).mpr h
  rw [← follows_iff_mem_sequences, follows_concat, Option.or_none]
  exact and_iff_right hfollows

end Keyword

end GraphQuery
