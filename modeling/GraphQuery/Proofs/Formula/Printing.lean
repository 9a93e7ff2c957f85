import GraphQuery.Proofs.Formula.Reading

/-! # Printing keeps the formula

A formula prints as its splicing does, and the grammar gets that back from the text. So formulas
that print alike are alike once spliced, and a text means what the tree means. -/

namespace GraphQuery.Formula

/-! ## Splicing does not show -/

theorem printOperands_append (parent : Connective) (xs ys : List (Formula String)) :
    printOperands parent (xs ++ ys) = printOperands parent xs ++ printOperands parent ys := by
  induction xs with
  | nil => rfl
  | cons x xs ih => simp only [List.cons_append, printOperands, ih]

/-- Spread out, an operand is printed as it is in one piece. -/
def SpreadsAlike (f : Formula String) : Prop :=
  ∀ parent, Text.joinWith (" " ++ parent.keyword ++ " ")
      (printOperands parent (spread parent f.spliced)) =
    if needsParentheses parent f then "(" ++ f.print ++ ")" else f.print

theorem printOperands_spread_ne_nil {f : Formula String} (h : Readable f) {parent : Connective}
    (hparent : parent ≠ .not) : printOperands parent (spread parent f.spliced) ≠ [] := by
  have hpos := (h.spoken.chained parent hparent).length_pos
  obtain ⟨g, gs, hspread⟩ := List.exists_cons_of_ne_nil (List.ne_nil_of_length_pos hpos)
  simp [hspread, printOperands]

theorem joinWith_splicedOperands {parent : Connective} (hparent : parent ≠ .not)
    (operands : List (Formula String)) (h : ∀ operand ∈ operands, Readable operand)
    (halike : ∀ operand ∈ operands, SpreadsAlike operand) :
    Text.joinWith (" " ++ parent.keyword ++ " ")
        (printOperands parent (splicedOperands parent operands)) =
      Text.joinWith (" " ++ parent.keyword ++ " ") (printOperands parent operands) := by
  induction operands with
  | nil => rfl
  | cons operand rest ih =>
      have hfront := halike operand (by simp) parent
      have hrest := ih (fun f hf => h f (by simp [hf])) (fun f hf => halike f (by simp [hf]))
      rw [splicedOperands, printOperands_append]
      cases rest with
      | nil => simpa [splicedOperands, printOperands] using hfront
      | cons next rest =>
          have hnext : printOperands parent (splicedOperands parent (next :: rest)) ≠ [] := by
            rw [splicedOperands, printOperands_append]
            exact List.append_ne_nil_of_left_ne_nil
              (printOperands_spread_ne_nil (h next (by simp)) hparent) _
          rw [Text.joinWith_append _ _ _ (printOperands_spread_ne_nil (h operand (by simp)) hparent)
            hnext, hfront, hrest]
          rfl

theorem SpreadsAlike.of_single {f : Formula String} (hprint : f.spliced.print = f.print)
    (hparens : ∀ parent, needsParentheses parent f.spliced = needsParentheses parent f)
    (hspread : ∀ parent, spread parent f.spliced = [f.spliced]) : SpreadsAlike f := by
  intro parent
  rw [hspread parent]
  simp [printOperands, hparens, hprint]

theorem Readable.spreadsAlike {f : Formula String} (h : Readable f) :
    f.spliced.print = f.print ∧ SpreadsAlike f := by
  induction h with
  | atom h => exact ⟨rfl, .of_single rfl (fun _ => rfl) (fun _ => rfl)⟩
  | raw h => exact ⟨rfl, .of_single rfl (fun _ => rfl) (fun _ => rfl)⟩
  | comparison h =>
      refine ⟨rfl, .of_single rfl ?_ (fun _ => rfl)⟩
      intro parent
      exact h.hasConnective_eq_false
  | @negation operand _ ih =>
      have hoperand := ih.2 .not
      rw [spread_not] at hoperand
      have hprint :
          (spliced (.boolean .not [operand])).print = print (.boolean .not [operand]) := by
        simpa [print, printOperands, Text.concat, Connective.isUnary] using hoperand
      refine ⟨hprint, ?_⟩
      intro parent
      have hspread : spread parent (.boolean .not [operand.spliced]) =
          [.boolean .not [operand.spliced]] := by
        by_cases h : parent = .not
        · rw [h, spread_not]
        · exact spread_of_ne (Ne.symm h) _
      rw [spliced_negation] at hprint ⊢
      rw [hspread]
      simpa [printOperands, needsParentheses, Connective.isUnary] using hprint
  | @chain c operands hc hlen hreadable ih =>
      have hjoin := joinWith_splicedOperands hc operands hreadable (fun f hf => (ih f hf).2)
      have hprint : (spliced (.boolean c operands)).print = print (.boolean c operands) := by
        rw [spliced, print, print, isUnary_eq_false hc]
        exact hjoin
      refine ⟨hprint, ?_⟩
      intro parent
      rw [spliced] at hprint ⊢
      rw [needsParentheses_chain parent hc]
      by_cases heq : c = parent
      · subst heq
        rw [spread_self hc, hjoin]
        simp [print, isUnary_eq_false hc]
      · rw [spread_of_ne heq]
        simp [printOperands, needsParentheses_chain parent hc, heq, hprint]

/-! ## Unambiguity -/

/-- The grammar reads a printed formula as its splicing and as nothing else, two formulas print
alike when they are alike once spliced, and a text is as true as the formula it was printed
from. -/
theorem print_unambiguous {f : Formula String} (hf : Readable f) :
    (∀ g, Reads f.print g ↔ g = f.spliced) ∧
    (∀ g, Readable g → (f.print = g.print ↔ f.spliced = g.spliced)) ∧
    ∀ g, Reads f.print g → ∀ truth, g.eval truth = f.eval truth := by
  refine ⟨hf.reads_print_iff, ?_, ?_⟩
  · intro g hg
    constructor
    · intro hprint
      have hreads : Reads g.print f.spliced := by
        rw [← hprint]
        exact (hf.reads_print_iff _).mpr rfl
      exact (hg.reads_print_iff _).mp hreads
    · intro hspliced
      rw [← hf.spreadsAlike.1, hspliced, hg.spreadsAlike.1]
  · intro g hreads truth
    rw [(hf.reads_print_iff g).mp hreads, eval_spliced]

theorem print_unambiguous_mixed :
    ∃ f : Formula String, Readable f ∧
      f.print = "(n.age > 30 XOR (a AND b AND c)) OR NOT (a OR NOT b) OR c" ∧
      Reads f.print (.boolean .or [
        .boolean .xor [.raw "n.age > 30", .boolean .and [.raw "a", .raw "b", .raw "c"]],
        .boolean .not [.boolean .or [.raw "a", .boolean .not [.raw "b"]]],
        .raw "c"]) := by
  have ha : PlainLeaf "a" := by decide
  have hb : PlainLeaf "b" := by decide
  have hc : PlainLeaf "c" := by decide
  have hage : PlainLeaf ("n.age" ++ " " ++ ">" ++ " " ++ "30") := by decide
  have hpair : ∀ c (f g : Formula String), c ≠ .not → Readable f → Readable g →
      Readable (.boolean c [f, g]) :=
    fun c f g hc hf hg => .chain hc (by simp) (by simp [hf, hg])
  have hand := hpair .and _ _ (by decide)
    (hpair .and _ _ (by decide) (.atom ha) (.raw hb)) (.raw hc)
  have hxor := hpair .xor _ _ (by decide) (.comparison hage) hand
  have hnot := Readable.negation
    (hpair .or _ _ (by decide) (.atom ha) (.negation (.atom hb)))
  have hmixed := hpair .or _ _ (by decide) (hpair .or _ _ (by decide) hxor hnot) (.raw hc)
  exact ⟨_, hmixed, by decide, ((print_unambiguous hmixed).1 _).mpr rfl⟩

end GraphQuery.Formula
