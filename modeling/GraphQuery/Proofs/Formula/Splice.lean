import GraphQuery.Formula.Print
import Mathlib.Data.List.Basic

/-! # Splicing

A chain that is an operand of the same connective says the same spread out in its parent. Splicing
does that everywhere and leaves of a leaf only its text. -/

namespace GraphQuery.Formula

/-- The operands that a formula comes to as an operand of `parent`. -/
def spread (parent : Connective) : Formula String → List (Formula String)
  | .boolean connective operands =>
      if connective = parent ∧ parent ≠ .not then operands else [.boolean connective operands]
  | leaf => [leaf]

mutual

def spliced : Formula String → Formula String
  | .boolean connective operands => .boolean connective (splicedOperands connective operands)
  | .atom text => .raw text
  | .raw text => .raw text
  | .comparison left operator right => .raw (left ++ " " ++ operator ++ " " ++ right)

def splicedOperands (parent : Connective) : List (Formula String) → List (Formula String)
  | [] => []
  | operand :: rest => spread parent (spliced operand) ++ splicedOperands parent rest

end

@[simp] theorem spread_not (f : Formula String) : spread .not f = [f] := by
  cases f <;> simp [spread]

theorem spread_self {c : Connective} (hc : c ≠ .not) (operands : List (Formula String)) :
    spread c (.boolean c operands) = operands := by
  simp [spread, hc]

theorem spread_of_ne {c parent : Connective} (h : c ≠ parent) (operands : List (Formula String)) :
    spread parent (.boolean c operands) = [.boolean c operands] := by
  simp [spread, h]

@[simp] theorem spliced_negation (operand : Formula String) :
    spliced (.boolean .not [operand]) = .boolean .not [operand.spliced] := by
  simp [spliced, splicedOperands]

/-! ## Truth -/

def holds : Connective → List Bool → Bool
  | .and, values => values.all id
  | .or, values => values.any id
  | .xor, values => values.foldr xor false
  | .not, values => values.all not

mutual

/-- The truth of a formula when each leaf is as true as its text. -/
def eval (truth : String → Bool) : Formula String → Bool
  | .boolean connective operands => holds connective (evalOperands truth operands)
  | .atom text => truth text
  | .raw text => truth text
  | .comparison left operator right => truth (left ++ " " ++ operator ++ " " ++ right)

def evalOperands (truth : String → Bool) : List (Formula String) → List Bool
  | [] => []
  | operand :: rest => eval truth operand :: evalOperands truth rest

end

theorem evalOperands_eq (truth : String → Bool) (operands : List (Formula String)) :
    evalOperands truth operands = operands.map (eval truth) := by
  induction operands with
  | nil => rfl
  | cons operand rest ih => rw [evalOperands, ih, List.map_cons]

/-- A chain's values may be taken together before they are combined with the others. -/
theorem holds_append (connective : Connective) (h : connective ≠ .not) (xs ys : List Bool) :
    holds connective (xs ++ ys) = holds connective (holds connective xs :: ys) := by
  cases connective with
  | and => simp [holds]
  | or => simp [holds]
  | xor =>
      induction xs with
      | nil => simp [holds]
      | cons x xs ih =>
          simp only [holds, List.cons_append, List.foldr_cons] at ih ⊢
          rw [ih, Bool.xor_assoc]
  | not => exact absurd rfl h

theorem holds_cons_congr (connective : Connective) (x : Bool) {xs ys : List Bool}
    (h : holds connective xs = holds connective ys) :
    holds connective (x :: xs) = holds connective (x :: ys) := by
  cases connective <;> simp_all [holds]

theorem holds_spread (truth : String → Bool) (parent : Connective) (f : Formula String)
    (values : List Bool) :
    holds parent ((spread parent f).map (eval truth) ++ values) =
      holds parent (eval truth f :: values) := by
  cases f with
  | boolean connective operands =>
      rw [spread]
      split
      · next h =>
          obtain ⟨rfl, hnot⟩ := h
          rw [holds_append _ hnot, eval, evalOperands_eq]
      · simp
  | _ => simp [spread]

mutual

/-- Splicing keeps the meaning. -/
theorem eval_spliced (truth : String → Bool) (f : Formula String) :
    f.spliced.eval truth = f.eval truth := by
  cases f with
  | boolean connective operands =>
      rw [spliced, eval, eval, evalOperands_eq]
      exact holds_splicedOperands truth connective operands
  | _ => simp only [spliced, eval]

theorem holds_splicedOperands (truth : String → Bool) (parent : Connective)
    (operands : List (Formula String)) :
    holds parent ((splicedOperands parent operands).map (eval truth)) =
      holds parent (evalOperands truth operands) := by
  cases operands with
  | nil => rfl
  | cons operand rest =>
      rw [splicedOperands, evalOperands, List.map_append, holds_spread,
        eval_spliced truth operand]
      exact holds_cons_congr parent _ (holds_splicedOperands truth parent rest)

end

end GraphQuery.Formula
