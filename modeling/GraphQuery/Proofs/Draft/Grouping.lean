import GraphQuery.Proofs.Clause.Groups
import GraphQuery.Proofs.Draft.LineBreaks
import GraphQuery.Proofs.Draft.Outline

/-! # Grouping

Whether the branches of a union can be told from what stands around it. In the text of a query they
can where nothing stands beside a union that prints separators. A union inside it at the same depth
is told from it by its mode alone. -/

namespace GraphQuery

open Text

/-! ## Query text in an outline -/

namespace Outline

def keyword : Outline → Keyword
  | .node keyword _ => keyword

def blocks : Outline → List (List Outline)
  | .node _ blocks => blocks

/-- No part is query text, in whatever block. -/
def NoRaw (sequence : List Outline) : Prop :=
  Everywhere blocks (fun part => part.keyword ≠ .rawText) sequence

end Outline

namespace Clause

theorem outline_keyword (clause : Clause) : clause.outline.keyword = clause.keyword := by
  cases clause <;> rfl

theorem outlineAll_eq (clauses : List Clause) : outlineAll clauses = clauses.map outline := by
  induction clauses with
  | nil => rfl
  | cons clause rest ih => rw [outlineAll, ih, List.map_cons]

theorem outline_blocks (clause : Clause) :
    clause.outline.blocks = clause.bodies.map outlineAll := by
  cases clause with
  | union mode branches =>
      have hbranches : ∀ branches, outlineBranches branches = branches.map outlineAll := by
        intro branches
        induction branches with
        | nil => rfl
        | cons branch rest ih => rw [outlineBranches, ih, List.map_cons]
      exact hbranches branches
  | _ => rfl

theorem noRaw_of_outline (clauses : List Clause) (h : Outline.NoRaw (outlineAll clauses)) :
    NoRaw clauses := by
  induction clauses using inductionAll with
  | h clauses ih =>
      rw [outlineAll_eq] at h
      refine everywhere_iff.mpr fun clause hclause => ?_
      obtain ⟨hkeyword, hblocks⟩ := everywhere_iff.mp h _ (List.mem_map_of_mem hclause)
      rw [outline_keyword] at hkeyword
      rw [outline_blocks] at hblocks
      exact ⟨hkeyword, fun body hbody => ih clause hclause body hbody
        (hblocks _ (List.mem_map_of_mem hbody))⟩

end Clause

namespace Draft

/-- The query has the lines of its clauses, and each body of a subquery stands in it between two
braces. In a block in which each union that prints separators stands alone, the lines between
neighbouring separators are those of one branch. No separator is of a mode that no union at the
depth of the block has. -/
theorem unions_grouped {catalog : Catalog} {settings : Settings} {steps : List Step} {query : Query}
    (hcompile : (run steps { catalog, settings }).compile = .ok query)
    (hraw : Outline.NoRaw (Step.outlineAll steps))
    (htexts : ∀ text ∈ Step.textsOfAll steps, Unbroken text) :
    let clauses := (run steps { catalog, settings }).clauses
    Text.lines query.text = Clause.linesAll 0 clauses ∧
      (∀ depth body, Clause.Block clauses (depth + 1) body →
        (Clause.subquery body).lines depth <:+: Text.lines query.text) ∧
      ∀ depth block, Clause.Block clauses depth block →
        (Clause.Apart block → Clause.Grouped depth block) ∧
        ∀ mode, Clause.Uniform mode block → ∀ line ∈ Clause.linesAll depth block,
          isSeparator depth line → line = lineAt depth mode.keyword.text := by
  intro clauses
  obtain ⟨hfault, -, rfl⟩ := compile_eq_ok_iff.mp hcompile
  have houtline : Clause.outlineAll clauses = Step.outlineAll steps :=
    run_outline_of_mirrors _ (fun s _ => mirrors s) ((run_fault_eq_none_iff rfl).mp hfault)
  have hraw : Clause.NoRaw clauses := Clause.noRaw_of_outline clauses (houtline ▸ hraw)
  have hlines : Text.lines (Draft.query (run steps { catalog, settings })).text =
      Clause.linesAll 0 clauses := Clause.lines_textAll hraw (unbroken_run hfault htexts)
  refine ⟨hlines, fun depth body hbody => ?_, fun depth block hblock => ?_⟩
  · rw [hlines]
    exact Clause.subquery_inside hbody
  · have hblockRaw : Clause.NoRaw block := Clause.noRaw_block hraw hblock
    exact ⟨fun hapart => hapart.grouped depth hblockRaw,
      fun mode huniform line hline => huniform.separator hblockRaw hline⟩

/-- A call that returns a variable, and its clause. -/
def returning (name : String) : Step :=
  .call (.project .returning false [{ identifier := .name name }])

def returned (name : String) : Clause := .project .returning false [⟨name, name, none⟩]

/-- A call that matches a node, and its clause. -/
def matching (name : String) : Step :=
  .call (.pattern .matching [{ start := { identifier := .name name } }])

def matched (name : String) : Clause := .pattern .matching [{ start := { reference := some name } }]

/-- Unions of one mode in one another, inside a subquery. The innermost has a single branch. -/
def joinedSteps : List Step :=
  [.subquery
      [.union .all
        [[matching "a", returning "a"],
          [.union .all [[returning "b"], [.union .distinct [[returning "c"]]]]]]],
    returning "d"]

def joinedBlock : List Clause :=
  [.union .all
    [[matched "a", returned "a"],
      [.union .all [[returned "b"], [.union .distinct [[returned "c"]]]]]]]

/-- The sequences at the depth of the block. -/
def joinedSequences : List (List Clause) :=
  [joinedBlock, [matched "a", returned "a"],
    [.union .all [[returned "b"], [.union .distinct [[returned "c"]]]]],
    [returned "b"], [.union .distinct [[returned "c"]]], [returned "c"]]

theorem atLevel_joinedBlock {sequence : List Clause} (h : Clause.AtLevel joinedBlock sequence) :
    sequence ∈ joinedSequences :=
  h.mem (.head _) (by simp [joinedSequences, joinedBlock, matched, returned])

theorem apart_joinedBlock : Clause.Apart joinedBlock := by
  have hlone : ∀ sequence ∈ joinedSequences,
      Clause.separatorsAll sequence = [] ∨ sequence.length = 1 := by decide
  exact fun sequence hsequence => hlone sequence (atLevel_joinedBlock hsequence)

theorem uniform_joinedBlock : Clause.Uniform .all joinedBlock := by
  intro sequence hsequence other branches hunion hbranches
  have hmem := atLevel_joinedBlock hsequence
  simp only [joinedSequences, List.mem_cons, List.not_mem_nil, or_false] at hmem
  rcases hmem with rfl | rfl | rfl | rfl | rfl | rfl <;>
    simp_all [joinedBlock, matched, returned]

theorem unions_grouped_joinedSteps :
    ∃ query, (run joinedSteps {}).compile = .ok query ∧
      Outline.NoRaw (Step.outlineAll joinedSteps) ∧
      (∀ text ∈ Step.textsOfAll joinedSteps, Unbroken text) ∧
      Clause.Block (run joinedSteps {}).clauses 1 joinedBlock ∧ Clause.Apart joinedBlock ∧
      Clause.Uniform .all joinedBlock ∧
      (Clause.subquery joinedBlock).lines 0 <:+: Text.lines query.text ∧
      Clause.Grouped 1 joinedBlock ∧
      (Clause.groups joinedBlock).map (Clause.linesAll 1) =
        [["  MATCH (a)", "  RETURN a"], ["  RETURN b"], ["  RETURN c"]] ∧
      ∀ line ∈ Clause.linesAll 1 joinedBlock, isSeparator 1 line → line = "  UNION ALL" := by
  have hraw : Outline.NoRaw (Step.outlineAll joinedSteps) := by
    simp [Outline.NoRaw, joinedSteps, matching, returning, Step.outlineAll, Step.outline,
      Step.outlineBranches, everywhere_cons, everywhere_nil, Outline.keyword, Outline.blocks,
      Call.keyword, UnionMode.keyword, PatternVerb.keyword, ProjectVerb.keyword]
  have htexts : ∀ text ∈ Step.textsOfAll joinedSteps, Unbroken text := by decide
  have hblock : Clause.Block (run joinedSteps {}).clauses 1 joinedBlock :=
    .body .whole .block (.head _)
  obtain ⟨hlines, hplaces, hblocks⟩ := @unions_grouped {} {} joinedSteps _ rfl hraw htexts
  obtain ⟨hgrouped, hseparator⟩ := hblocks 1 joinedBlock hblock
  exact ⟨_, rfl, hraw, htexts, hblock, apart_joinedBlock, uniform_joinedBlock,
    hplaces 0 joinedBlock hblock, hgrouped apart_joinedBlock, by decide +kernel,
    hseparator .all uniform_joinedBlock⟩

/-- A clause in front of a union, and in this one of another mode. -/
def mergedSteps : List Step :=
  [matching "a",
    .union .distinct [[returning "a"], [.union .all [[returning "b"], [returning "c"]]]]]

def mergedClauses : List Clause :=
  [matched "a",
    .union .distinct [[returned "a"], [.union .all [[returned "b"], [returned "c"]]]]]

/-- The lines in front of the first separator belong to no branch, and the separators are not all
of one mode. -/
theorem not_grouped_mergedSteps :
    (∃ query, (run mergedSteps {}).compile = .ok query ∧
      query.text = "MATCH (a)\nRETURN a\nUNION\nRETURN b\nUNION ALL\nRETURN c") ∧
      Outline.NoRaw (Step.outlineAll mergedSteps) ∧
      (∀ text ∈ Step.textsOfAll mergedSteps, Unbroken text) ∧
      (run mergedSteps {}).clauses = mergedClauses ∧
      (∃ group ∈ (Clause.linesAll 0 mergedClauses).splitOnP (isSeparator 0),
        ∀ branch, Clause.BranchOf mergedClauses branch → Clause.linesAll 0 branch ≠ group) ∧
      ∃ line ∈ Clause.linesAll 0 mergedClauses, ∃ other ∈ Clause.linesAll 0 mergedClauses,
        isSeparator 0 line ∧ isSeparator 0 other ∧ line ≠ other := by
  refine ⟨⟨_, rfl, by decide +kernel⟩, ?_, by decide, rfl, ?_, ?_⟩
  · simp [Outline.NoRaw, mergedSteps, matching, returning, Step.outlineAll, Step.outline,
      Step.outlineBranches, everywhere_cons, everywhere_nil, Outline.keyword, Outline.blocks,
      Call.keyword, UnionMode.keyword, PatternVerb.keyword, ProjectVerb.keyword]
  · have hothers : ∀ sequence ∈
        [mergedClauses, [returned "a"], [.union .all [[returned "b"], [returned "c"]]],
          [returned "b"], [returned "c"]],
        Clause.linesAll 0 sequence ≠ ["MATCH (a)", "RETURN a"] := by decide +kernel
    refine ⟨["MATCH (a)", "RETURN a"], by decide +kernel, fun branch hbranch => ?_⟩
    obtain ⟨around, mode, branches, haround, hunion, hbranch⟩ := hbranch
    have hlevel : Clause.AtLevel mergedClauses branch := .branch haround hunion hbranch
    exact hothers branch (hlevel.mem (.head _) (by simp [mergedClauses, matched, returned]))
  · exact ⟨"UNION", by decide +kernel, "UNION ALL", by decide +kernel, by decide, by decide,
      by decide⟩

end Draft

end GraphQuery
