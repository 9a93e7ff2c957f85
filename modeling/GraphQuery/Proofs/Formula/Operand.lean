import GraphQuery.Proofs.Formula.Printing

/-! # Leaves among operands

Wherever in a condition a leaf is an operand, its text stands in that of the condition, and what
stands around it does not depend on the leaf. Atoms and raw texts with a connective of their own
are in parentheses there. Comparisons never are. -/

namespace GraphQuery.Formula

inductive Leaf
  | atom (text : String)
  | raw (text : String)
  | comparison (left operator right : String)

namespace Leaf

def formula : Leaf → Formula String
  | .atom text => .atom text
  | .raw text => .raw text
  | .comparison left operator right => .comparison left operator right

def text (leaf : Leaf) : String := leaf.formula.print

def isComparison : Leaf → Bool
  | .comparison _ _ _ => true
  | _ => false

end Leaf

/-- The place of an operand: its connective, and the operands to its left and right. -/
structure Place where
  connective : Connective
  left : List (Formula String)
  right : List (Formula String)

def Place.fill (place : Place) (operand : Formula String) : Formula String :=
  .boolean place.connective (place.left ++ operand :: place.right)

/-- The tree with an operand in the first of these places, which lies in the second, and so on. -/
def plug : List Place → Formula String → Formula String
  | [], f => f
  | place :: outer, f => plug outer (place.fill f)

/-- The text of a formula as an operand. -/
def operandText (parent : Connective) (f : Formula String) : String :=
  if needsParentheses parent f then "(" ++ f.print ++ ")" else f.print

/-! ## What stands around an operand -/

/-- The text that depends on `x` stands between texts that do not. -/
def Framed {α : Type} (whole part : α → String) : Prop :=
  ∃ before after, ∀ x, whole x = before ++ part x ++ after

theorem Framed.refl {α : Type} (part : α → String) : Framed part part :=
  ⟨"", "", fun x => by simp⟩

theorem Framed.trans {α : Type} {whole middle part : α → String} (h : Framed whole middle)
    (h' : Framed middle part) : Framed whole part := by
  obtain ⟨before, after, hwhole⟩ := h
  obtain ⟨before', after', hmiddle⟩ := h'
  refine ⟨before ++ before', after' ++ after, fun x => ?_⟩
  rw [hwhole, hmiddle]
  simp [String.append_assoc]

theorem framed_joinWith (separator : String) (xs ys : List String) :
    Framed (fun text => Text.joinWith separator (xs ++ text :: ys)) id := by
  have hright : Framed (fun text => Text.joinWith separator (text :: ys)) id := by
    cases ys with
    | nil => exact .refl id
    | cons y ys => exact ⟨"", separator ++ Text.joinWith separator (y :: ys), fun text => by
        simp [String.append_assoc]⟩
  cases xs with
  | nil => exact hright
  | cons x xs =>
      have hleft : Framed (fun text => Text.joinWith separator (x :: xs ++ text :: ys))
          (fun text => Text.joinWith separator (text :: ys)) := by
        refine ⟨Text.joinWith separator (x :: xs) ++ separator, "", fun text => ?_⟩
        simpa using Text.joinWith_append separator (x :: xs) (text :: ys) (by simp) (by simp)
      exact hleft.trans hright

theorem framed_concat (xs ys : List String) :
    Framed (fun text => Text.concat (xs ++ text :: ys)) id := by
  induction xs with
  | nil => exact ⟨"", Text.concat ys, fun text => by simp [Text.concat]⟩
  | cons x xs ih =>
      exact .trans ⟨x, "", fun text => by simp [Text.concat]⟩ ih

theorem printOperands_place (place : Place) (f : Formula String) :
    printOperands place.connective (place.left ++ f :: place.right) =
      printOperands place.connective place.left ++
        operandText place.connective f :: printOperands place.connective place.right :=
  printOperands_append _ _ _

theorem framed_fill (place : Place) :
    Framed (fun f => (place.fill f).print) (operandText place.connective) := by
  cases hunary : place.connective.isUnary with
  | true =>
      obtain ⟨before, after, hconcat⟩ := framed_concat (printOperands place.connective place.left)
        (printOperands place.connective place.right)
      refine ⟨place.connective.keyword ++ " " ++ before, after, fun f => ?_⟩
      have htext := hconcat (operandText place.connective f)
      simp only [Place.fill, print, hunary, if_true, printOperands_place, htext, id]
      simp [String.append_assoc]
  | false =>
      obtain ⟨before, after, hjoin⟩ := framed_joinWith (" " ++ place.connective.keyword ++ " ")
        (printOperands place.connective place.left) (printOperands place.connective place.right)
      refine ⟨before, after, fun f => ?_⟩
      have htext := hjoin (operandText place.connective f)
      simp only [Place.fill, print, hunary, printOperands_place, htext, id, Bool.false_eq_true,
        if_false]

/-- Whether a connective is in parentheses does not depend on its operands. -/
theorem framed_operandText (parent : Connective) (place : Place) :
    Framed (fun f => operandText parent (place.fill f)) (fun f => (place.fill f).print) := by
  cases hparens : needsParentheses parent (place.fill (.raw "")) with
  | true => exact ⟨"(", ")", fun f => if_pos hparens⟩
  | false =>
      refine ⟨"", "", fun f => ?_⟩
      have hbare : needsParentheses parent (place.fill f) = false := hparens
      simp [operandText, hbare]

theorem framed_plug (outer : List Place) (place : Place) :
    Framed (fun f => (plug (place :: outer) f).print) (operandText place.connective) := by
  induction outer generalizing place with
  | nil => exact framed_fill place
  | cons next outer ih =>
      obtain ⟨before, after, hprint⟩ := ih next
      have houter : Framed (fun f => (plug (place :: next :: outer) f).print)
          (fun f => operandText next.connective (place.fill f)) :=
        ⟨before, after, fun f => hprint (place.fill f)⟩
      exact houter.trans ((framed_operandText next.connective place).trans (framed_fill place))

/-! ## Leaves -/

theorem needsParentheses_leaf (parent : Connective) (leaf : Leaf) :
    needsParentheses parent leaf.formula = (hasConnective leaf.text && !leaf.isComparison) := by
  cases leaf <;> simp [Leaf.formula, Leaf.text, Leaf.isComparison, needsParentheses, print]

/-- As an operand of any connective, however deep in a tree, a leaf whose text has a connective of
its own is printed in parentheses, unless it is a comparison. -/
theorem leaf_parentheses (place : Place) (outer : List Place) :
    ∃ before after, ∀ leaf : Leaf,
      (plug (place :: outer) leaf.formula).print =
        before ++
          (if hasConnective leaf.text ∧ ¬ leaf.isComparison then "(" ++ leaf.text ++ ")"
            else leaf.text) ++
          after := by
  obtain ⟨before, after, hprint⟩ := framed_plug outer place
  refine ⟨before, after, fun leaf => ?_⟩
  have hleaf := hprint leaf.formula
  rw [operandText, needsParentheses_leaf] at hleaf
  simpa [Leaf.text] using hleaf

/-- The operator of a comparison's own text takes over: what was to be a conjunction reads as a
disjunction. -/
theorem comparison_regroups :
    hasConnective (Leaf.comparison "a OR b" "=" "c").text = true ∧
    (plug [⟨.and, [], [.raw "d"]⟩] (Leaf.comparison "a OR b" "=" "c").formula).print =
      "a OR b = c AND d" ∧
    Reads "a OR b = c AND d"
      (.boolean .or [.raw "a", .boolean .and [.raw "b = c", .raw "d"]]) := by
  refine ⟨by decide, by decide, ?_⟩
  have hsymbols : symbols "a OR b = c AND d" =
      [.leaf "a", .connective .or, .leaf "b = c", .connective .and, .leaf "d"] := by decide
  have hand : Derives (level .or + 1) [.leaf "b = c", .connective .and, .leaf "d"]
      (.boolean .and [.raw "b = c", .raw "d"]) :=
    .chain [([.leaf "b = c"], .raw "b = c"), ([.leaf "d"], .raw "d")] (by decide) (by decide)
      (by decide) (by simpa using ⟨.leaf _ "b = c", .leaf _ "d"⟩)
  rw [Reads, hsymbols]
  exact ((Chained.single (.leaf _ "a")).append (.single hand)).derives (by decide) (by decide)

end GraphQuery.Formula
