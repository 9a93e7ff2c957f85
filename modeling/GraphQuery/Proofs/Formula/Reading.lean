import GraphQuery.Proofs.Formula.Grammar
import GraphQuery.Proofs.Formula.Splice

/-! # Reading printed conditions

A printed formula falls into the symbols its tree says it should, and the grammar reads these as
the tree with its chains spliced and as nothing else. -/

namespace GraphQuery.Formula

/-- Trees whose text can be read: connectives have as many operands as they take, and leaves are
plain. -/
inductive Readable : Formula String → Prop
  | atom {text : String} : PlainLeaf text → Readable (.atom text)
  | raw {text : String} : PlainLeaf text → Readable (.raw text)
  | comparison {left operator right : String} :
      PlainLeaf (left ++ " " ++ operator ++ " " ++ right) →
      Readable (.comparison left operator right)
  | negation {operand : Formula String} : Readable operand → Readable (.boolean .not [operand])
  | chain {connective : Connective} {operands : List (Formula String)} :
      connective ≠ .not → 2 ≤ operands.length → (∀ operand ∈ operands, Readable operand) →
      Readable (.boolean connective operands)

/-! ## The symbols of a printed formula -/

mutual

def printedSymbols : Formula String → List Symbol
  | .atom text => [.leaf text]
  | .raw text => [.leaf text]
  | .comparison left operator right => [.leaf (left ++ " " ++ operator ++ " " ++ right)]
  | .boolean connective operands =>
      if connective.isUnary then
        .connective connective :: (operandSymbols connective operands).flatten
      else List.intercalate [.connective connective] (operandSymbols connective operands)

def operandSymbols (parent : Connective) : List (Formula String) → List (List Symbol)
  | [] => []
  | operand :: rest =>
      (if needsParentheses parent operand then
        .opening :: (printedSymbols operand ++ [.closing])
      else printedSymbols operand) :: operandSymbols parent rest

end

theorem PlainLeaf.hasConnective_eq_false {text : String} (h : PlainLeaf text) :
    hasConnective text = false :=
  connectiveAhead_eq_false [] [] text.toList (by simp) h.unquoted h.unbracketed
    (by simpa using h.wordless)

theorem isUnary_eq_false {c : Connective} (h : c ≠ .not) : c.isUnary = false := by
  cases c <;> first | rfl | exact absurd rfl h

/-- How a text and its symbols stand as an operand. -/
theorem Lexes.operand {f : Formula String} (parent : Connective)
    (h : Lexes f.print.toList f.printedSymbols) :
    Lexes (if needsParentheses parent f then "(" ++ f.print ++ ")" else f.print).toList
      (if needsParentheses parent f then .opening :: (f.printedSymbols ++ [.closing])
        else f.printedSymbols) := by
  split
  · simpa using h.group
  · exact h

theorem lexes_operands (parent : Connective) (operands : List (Formula String))
    (hne : operands ≠ [])
    (h : ∀ operand ∈ operands, Lexes operand.print.toList operand.printedSymbols) :
    Lexes (Text.joinWith (" " ++ parent.keyword ++ " ") (printOperands parent operands)).toList
      (List.intercalate [.connective parent] (operandSymbols parent operands)) := by
  induction operands with
  | nil => exact absurd rfl hne
  | cons operand rest ih =>
      have hoperand := (h operand (by simp)).operand parent
      cases rest with
      | nil => simpa [printOperands, operandSymbols] using hoperand
      | cons next rest =>
          have hrest := ih (by simp) (fun f hf => h f (by simp [List.mem_cons.mp hf]))
          rw [printOperands, operandSymbols]
          have hjoined := hoperand.joined hrest parent
          simp only [printOperands, operandSymbols] at hjoined ⊢
          rw [Text.joinWith_cons_cons, List.intercalate_cons_cons]
          simpa using hjoined

theorem Readable.lexes {f : Formula String} (h : Readable f) :
    Lexes f.print.toList f.printedSymbols := by
  induction h with
  | atom h => exact h.lexes
  | raw h => exact h.lexes
  | comparison h => exact h.lexes
  | negation h ih =>
      have hheaded := (ih.operand .not).headed .not
      simpa [print, printedSymbols, printOperands, operandSymbols, Text.concat,
        Connective.isUnary] using hheaded
  | @chain connective operands hc hlen h ih =>
      have hne : operands ≠ [] := by
        rintro rfl
        simp at hlen
      rw [print, printedSymbols, isUnary_eq_false hc]
      exact lexes_operands connective operands hne ih

/-- A reader takes a printed formula for its symbols. -/
theorem Readable.symbols_print {f : Formula String} (h : Readable f) :
    symbols f.print = f.printedSymbols :=
  h.lexes.symbols_eq

/-! ## Reading the symbols -/

/-- How the symbols of a formula read: by themselves, as an operand in a chain, and negated. -/
structure Spoken (f : Formula String) : Prop where
  whole : Derives 0 f.printedSymbols f.spliced
  chained : ∀ parent, parent ≠ .not →
    Chained parent
      (if needsParentheses parent f then .opening :: (f.printedSymbols ++ [.closing])
        else f.printedSymbols)
      (spread parent f.spliced)
  negated : Derives (level .not)
    (if needsParentheses .not f then .opening :: (f.printedSymbols ++ [.closing])
      else f.printedSymbols)
    f.spliced

/-- What binds tighter than every chain needs no parentheses and stays one operand. -/
theorem Spoken.of_tight {f : Formula String} (h : Derives (level .not) f.printedSymbols f.spliced)
    (hbare : ∀ parent, needsParentheses parent f = false)
    (hspread : ∀ parent, parent ≠ .not → spread parent f.spliced = [f.spliced]) : Spoken f := by
  refine ⟨h.weaken (Nat.zero_le _), ?_, ?_⟩
  · intro parent hparent
    rw [hbare, hspread parent hparent]
    exact .single (h.weaken (level_lt_not hparent))
  · rw [hbare]
    exact h

theorem chained_operands {parent : Connective} (hparent : parent ≠ .not)
    (operands : List (Formula String)) (hne : operands ≠ [])
    (h : ∀ operand ∈ operands, Spoken operand) :
    Chained parent (List.intercalate [.connective parent] (operandSymbols parent operands))
      (splicedOperands parent operands) := by
  induction operands with
  | nil => exact absurd rfl hne
  | cons operand rest ih =>
      have hoperand := (h operand (by simp)).chained parent hparent
      cases rest with
      | nil => simpa [operandSymbols, splicedOperands] using hoperand
      | cons next rest =>
          have hrest := ih (by simp) (fun f hf => h f (by simp [List.mem_cons.mp hf]))
          have happend := hoperand.append hrest
          simp only [operandSymbols, splicedOperands] at happend ⊢
          rwa [List.intercalate_cons_cons]

theorem length_le_splicedOperands {parent : Connective} (hparent : parent ≠ .not)
    (operands : List (Formula String)) (h : ∀ operand ∈ operands, Spoken operand) :
    operands.length ≤ (splicedOperands parent operands).length := by
  induction operands with
  | nil => simp
  | cons operand rest ih =>
      have hpos := ((h operand (by simp)).chained parent hparent).length_pos
      have hrest := ih (fun f hf => h f (by simp [hf]))
      simp only [splicedOperands, List.length_append, List.length_cons]
      omega

theorem needsParentheses_chain (parent : Connective) {c : Connective} (hc : c ≠ .not)
    (operands : List (Formula String)) :
    needsParentheses parent (.boolean c operands) = decide (c ≠ parent) := by
  by_cases h : c = parent
  · simp [needsParentheses, h]
  · simp [needsParentheses, isUnary_eq_false hc, h]

theorem Spoken.of_chain {c : Connective} {operands : List (Formula String)} (hc : c ≠ .not)
    (hlen : 2 ≤ operands.length) (h : ∀ operand ∈ operands, Spoken operand) :
    Spoken (.boolean c operands) := by
  have hne : operands ≠ [] := by
    rintro rfl
    simp at hlen
  have hsymbols : printedSymbols (.boolean c operands) =
      List.intercalate [.connective c] (operandSymbols c operands) := by
    rw [printedSymbols, isUnary_eq_false hc]
    rfl
  have hchained := chained_operands hc operands hne h
  have hwhole :
      Derives 0 (printedSymbols (.boolean c operands)) (spliced (.boolean c operands)) := by
    rw [hsymbols, spliced]
    exact hchained.derives hc (hlen.trans (length_le_splicedOperands hc operands h))
  refine ⟨hwhole, ?_, ?_⟩
  · intro parent hparent
    rw [needsParentheses_chain parent hc, spliced]
    by_cases heq : c = parent
    · subst heq
      simpa [spread_self hc, hsymbols] using hchained
    · rw [spliced] at hwhole
      simpa [spread_of_ne heq, heq] using Chained.single (.group hwhole)
  · rw [needsParentheses_chain .not hc]
    simpa [hc] using Derives.group hwhole

theorem Readable.spoken {f : Formula String} (h : Readable f) : Spoken f := by
  induction h with
  | @atom text h =>
      exact .of_tight (.leaf _ text) (fun _ => h.hasConnective_eq_false) (fun _ _ => rfl)
  | @raw text h =>
      exact .of_tight (.leaf _ text) (fun _ => h.hasConnective_eq_false) (fun _ _ => rfl)
  | comparison h => exact .of_tight (.leaf _ _) (fun _ => rfl) (fun _ _ => rfl)
  | @negation operand _ ih =>
      apply Spoken.of_tight
      · simpa [printedSymbols, operandSymbols, Connective.isUnary] using
          Derives.negation le_rfl ih.negated
      · intro parent
        rfl
      · intro parent hparent
        rw [spliced_negation, spread_of_ne hparent.symm]
  | chain hc hlen _ ih => exact .of_chain hc hlen ih

/-- The grammar reads a printed formula as its splicing alone. -/
theorem Readable.reads_print_iff {f : Formula String} (h : Readable f) (g : Formula String) :
    Reads f.print g ↔ g = f.spliced := by
  rw [Reads, h.symbols_print]
  constructor
  · intro hg
    exact hg.unique h.spoken.whole
  · rintro rfl
    exact h.spoken.whole

end GraphQuery.Formula
