import GraphQuery.Proofs.Clause.Groups
import GraphQuery.Proofs.Clause.Quotations
import GraphQuery.Proofs.Draft.Events
import GraphQuery.Proofs.Draft.History

/-! # Quotations in calls for raw text

The text of a call is written at the depth of the subqueries around it. Its words are those of the
query, at whatever depth, if and only if each of its quotations is settled there. A quotation in
which no line breaks is settled at every depth. -/

namespace GraphQuery

open Text Formula

/-! ## Cited text -/

/-- The text stands among the clauses, in so many subqueries. -/
inductive Clause.Cites (text : String) : List Clause → Nat → Prop
  | here {clauses : List Clause} (hclause : .rawText text ∈ clauses) : Cites text clauses 0
  | inSubquery {clauses body : List Clause} {depth : Nat} (hclause : .subquery body ∈ clauses)
      (hcites : Cites text body depth) : Cites text clauses (depth + 1)
  | inBranch {clauses branch : List Clause} {mode : UnionMode} {branches : List (List Clause)}
      {depth : Nat} (hclause : .union mode branches ∈ clauses) (hbranch : branch ∈ branches)
      (hcites : Cites text branch depth) : Cites text clauses depth

/-- The steps call for the text, in so many subqueries. -/
inductive Step.Cites (text : String) : List Step → Nat → Prop
  | here {steps : List Step} (hstep : .call (.rawText text) ∈ steps) : Cites text steps 0
  | inSubquery {steps body : List Step} {depth : Nat} (hstep : .subquery body ∈ steps)
      (hcites : Cites text body depth) : Cites text steps (depth + 1)
  | inBranch {steps branch : List Step} {mode : UnionMode} {branches : List (List Step)}
      {depth : Nat} (hstep : .union mode branches ∈ steps) (hbranch : branch ∈ branches)
      (hcites : Cites text branch depth) : Cites text steps depth

variable {text : String} {depth : Nat}

theorem Clause.Cites.inside {clauses : List Clause} (h : Clause.Cites text clauses depth)
    (base : Nat) : rawLines (base + depth) text <:+: Clause.linesAll base clauses := by
  induction h generalizing base with
  | here hclause =>
      have hlines := Clause.lines_inside base hclause
      rwa [Clause.lines] at hlines
  | @inSubquery clauses body depth hclause _ ih =>
      have hbody := ih (base + 1)
      rw [Nat.add_right_comm, Nat.add_assoc] at hbody
      exact hbody.trans ((Clause.body_inside base body).trans (Clause.lines_inside base hclause))
  | inBranch hclause hbranch _ ih =>
      exact (ih base).trans
        ((Clause.branch_inside base _ hbranch).trans (Clause.lines_inside base hclause))

namespace Draft

/-- In a run without a failure each step is taken, and its clauses stay. -/
theorem exists_taken {steps : List Step} {s : Step} (h : s ∈ steps) {draft : Draft}
    (hcalm : failures steps draft = []) :
    ∃ before, faults (stepEvents s before) = [] ∧
      (step s before).clauses <+: (run steps draft).clauses := by
  induction steps generalizing draft with
  | nil => cases h
  | cons first rest ih =>
      obtain ⟨hfirst, hrest⟩ := faults_append_eq_nil_iff.mp hcalm
      rw [run_cons]
      rcases List.mem_cons.mp h with rfl | hlater
      · refine ⟨draft, hfirst, ?_⟩
        rw [run_eq_onto rest (step s draft)]
        exact List.prefix_append _ _
      · exact ih hlater hrest

theorem exists_branch {branches : List (List Step)} {branch : List Step} (h : branch ∈ branches)
    {draft : Draft} (hcalm : faults (branchEvents branches draft) = []) :
    ∃ inside, failures branch inside = [] ∧
      (run branch inside).clauses ∈ (runBranches branches draft).2 := by
  induction branches generalizing draft with
  | nil => cases h
  | cons first rest ih =>
      obtain ⟨hfirst, hrest⟩ := faults_append_eq_nil_iff.mp hcalm
      rcases List.mem_cons.mp h with rfl | hlater
      · exact ⟨_, hfirst, .head _⟩
      · obtain ⟨inside, hinside, hmem⟩ := ih hlater hrest
        exact ⟨inside, hinside, .tail _ hmem⟩

theorem cites_of_step {steps : List Step} (h : Step.Cites text steps depth) {draft : Draft}
    (hcalm : failures steps draft = []) : Clause.Cites text (run steps draft).clauses depth := by
  induction h generalizing draft with
  | here hstep =>
      obtain ⟨before, htaken, hclauses⟩ := exists_taken hstep hcalm
      obtain ⟨clause, known, hclause, hpush, hcall⟩ := call_calm htaken
      cases hclause
      have hraw : Clause.rawText text ∈ (step (.call (.rawText text)) before).clauses := by
        rw [step, hcall, push_calm hpush]
        exact List.mem_concat_self
      exact .here (hclauses.subset hraw)
  | @inSubquery steps body depth hstep _ ih =>
      obtain ⟨before, htaken, hclauses⟩ := exists_taken hstep hcalm
      obtain ⟨hdepth, hbody, hpush⟩ := subquery_calm htaken
      have hsubquery : Clause.subquery (run body (before.inner before.known.scope)).clauses ∈
          (step (.subquery body) before).clauses := by
        simp only [step_subquery, hdepth, push_calm hpush]
        exact List.mem_concat_self
      exact .inSubquery (hclauses.subset hsubquery) (ih hbody)
  | @inBranch steps branch mode branches depth hstep hbranch _ ih =>
      obtain ⟨before, htaken, hclauses⟩ := exists_taken hstep hcalm
      obtain ⟨hdepth, hbranches, hpush⟩ := union_calm htaken
      obtain ⟨inside, hinside, hmem⟩ := exists_branch hbranch hbranches
      have hunion : Clause.union mode (runBranches branches before).2 ∈
          (step (.union mode branches) before).clauses := by
        simp only [step_union, hdepth, push_calm hpush]
        exact List.mem_concat_self
      exact .inBranch (hclauses.subset hunion) hmem (ih hinside)

/-! ## What a query has of the text -/

/-- The lines of a call for raw text stand in the query. Whichever quotations the text is read to
have, its lines are read to have the same words, each quotation settled, and so the very same words
if and only if every quotation is settled at the depth of the call. -/
theorem raw_words_kept_iff {catalog : Catalog} {settings : Settings} {steps : List Step}
    {query : Query} (hcompile : (run steps { catalog, settings }).compile = .ok query)
    (hcites : Step.Cites text steps depth) {parts : List Part}
    (htext : text.toList = parts.flatMap Part.text) (hmarked : ∀ part ∈ parts, part.Marked) :
    ∃ (before after : List String) (written : List Part),
      query.text = joinWith "\n" (before ++ rawLines depth text ++ after) ∧
      (joinWith "\n" (rawLines depth text)).toList = written.flatMap Part.text ∧
      ((∀ part ∈ parts, part.Closed) → ∀ part ∈ written, part.Closed) ∧
      Part.words written = (Part.words parts).map (List.map (Part.settle depth)) ∧
      (Part.words written = Part.words parts ↔
        ∀ mark body, .quoted mark body ∈ parts → Settled depth body) := by
  obtain ⟨hfault, -, rfl⟩ := compile_eq_ok_iff.mp hcompile
  have hclauses := cites_of_step hcites ((run_fault_eq_none_iff rfl).mp hfault)
  obtain ⟨before, after, hlines⟩ := hclauses.inside 0
  obtain ⟨written, hwritten, hclosed, hwords⟩ := Part.exists_written depth htext hmarked
  refine ⟨before, after, written, ?_, hwritten, hclosed, hwords, ?_⟩
  · rw [Nat.zero_add] at hlines
    rw [hlines]
    rfl
  · rw [hwords]
    exact Part.map_settle_words_iff depth parts

/-- Text with two quotations. In the first a line breaks, in the second none does. -/
def quotingText : String := "\n RETURN \x27a\n  b\x27 AS x,\n\x22c  d\x22 AS y "

def quotingParts : List Part :=
  bares "\n RETURN " ++ .quoted '\x27' "a\n  b".toList :: bares " AS x,\n" ++
    .quoted '\x22' "c  d".toList :: bares " AS y "

/-- A call for the text where the broken quotation is settled. -/
def settledSteps : List Step := [.subquery [.union .all [[.call (.rawText quotingText)]]]]

theorem cites_settledSteps : Step.Cites quotingText settledSteps 1 :=
  .inSubquery (.head _) (.inBranch (.head _) (.head _) (.here (.head _)))

theorem raw_words_kept_iff_settledSteps :
    ∃ query, (run settledSteps {}).compile = .ok query ∧
      query.text =
        "CALL \x7b\n  RETURN \x27a\n  b\x27 AS x,\n  \x22c  d\x22 AS y\n\x7d" ∧
      quotingText.toList = quotingParts.flatMap Part.text ∧
      (∀ part ∈ quotingParts, part.Closed) ∧
      ∃ written : List Part,
        (joinWith "\n" (rawLines 1 quotingText)).toList = written.flatMap Part.text ∧
        Part.words written = Part.words quotingParts := by
  have htext : quotingText.toList = quotingParts.flatMap Part.text := by decide +kernel
  have hclosed : ∀ part ∈ quotingParts, part.Closed := by decide +kernel
  have hsettled : ∀ mark body, .quoted mark body ∈ quotingParts → Settled 1 body := by
    intro mark body hpart
    obtain ⟨-, rfl⟩ | ⟨-, rfl⟩ : mark = '\x27' ∧ body = "a\n  b".toList ∨
        mark = '\x22' ∧ body = "c  d".toList := by
      simpa [quotingParts, bares] using hpart
    · decide
    · exact settled_of_not_mem (by decide)
  obtain ⟨before, after, written, -, hwritten, -, -, hkept⟩ :=
    @raw_words_kept_iff _ _ {} {} settledSteps _ rfl cites_settledSteps _ htext
      fun part hpart => (hclosed part hpart).marked
  exact ⟨_, rfl, by decide +kernel, htext, hclosed, written, hwritten, hkept.mpr hsettled⟩

/-- Calls for text of which a quotation is not settled, at the top and in a subquery. -/
def unsettledSteps : List Step :=
  [.call (.rawText "RETURN \x27a\n  b\x27 AS x"),
    .subquery [.call (.rawText "RETURN \x27c\nd\x27 AS y")]]

/-- The first quotation loses the blanks behind its line break, the second one gets some. -/
theorem raw_words_changed_unsettledSteps :
    ∃ query, (run unsettledSteps {}).compile = .ok query ∧
      Step.Cites "RETURN \x27a\n  b\x27 AS x" unsettledSteps 0 ∧
      Step.Cites "RETURN \x27c\nd\x27 AS y" unsettledSteps 1 ∧
      query.text = "RETURN \x27a\nb\x27 AS x\nCALL \x7b\n  RETURN \x27c\n  d\x27 AS y\n\x7d" ∧
      ¬ "\x27a\n  b\x27".toList <:+: query.text.toList ∧
      ¬ "\x27c\nd\x27".toList <:+: query.text.toList := by
  have htext : (run unsettledSteps {}).query.text =
      "RETURN \x27a\nb\x27 AS x\nCALL \x7b\n  RETURN \x27c\n  d\x27 AS y\n\x7d" := by
    decide +kernel
  refine ⟨(run unsettledSteps {}).query, rfl, .here (.head _),
    .inSubquery (.tail _ (.head _)) (.here (.head _)), htext, ?_, ?_⟩
  · rw [htext]
    decide +kernel
  · rw [htext]
    decide +kernel

end Draft

end GraphQuery
