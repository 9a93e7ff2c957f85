import GraphQuery.Proofs.Draft.Nesting

/-! # Subqueries

A subquery is its body run in place: only the clauses of the body stand in a clause of their
own. -/

namespace GraphQuery

namespace Draft

/-- Folding in what was built with nothing there before leaves what would have been built. -/
theorem absorbScope_deeper {draft inside : Draft} (hinside : draft.cleared.Continues inside) :
    draft.absorbScope inside.deeper = { draft.onto inside with clauses := draft.clauses } := by
  have hissued : max draft.issued inside.issued = inside.issued :=
    Nat.max_eq_right hinside.issued
  have hcatalog : inside.catalog = draft.catalog := hinside.catalog
  have hsettings : inside.settings = draft.settings := hinside.settings
  have hdepth : inside.depth = draft.depth := hinside.depth
  simp only [absorbScope, absorb, onto, deeper, Vocabulary.behind, hissued, hcatalog, hsettings,
    hdepth]

/-- As long as its blocks fit and it appends any clause, a program leaves the same variables,
parameters, tokens and fault inside a subquery as without one. -/
theorem subquery_eq_run {draft : Draft} {steps : List Step}
    (hfits : draft.Fits (Step.heightAll steps + 1))
    (happends : draft.clauses.length < (run steps draft).clauses.length) :
    ∃ body, (run steps draft).clauses = draft.clauses ++ body ∧
      draft.subquery (run steps) =
        { run steps draft with clauses := draft.clauses ++ [.subquery body] } := by
  have hdirect : run steps draft = draft.onto (run steps draft.cleared) := run_eq_onto steps draft
  have hclauses : (run steps draft).clauses =
      draft.clauses ++ (run steps draft.cleared).clauses := by
    rw [hdirect]
    rfl
  have hsome : (Clause.subquery (run steps draft.cleared).clauses).isEmpty = false := by
    refine Bool.eq_false_iff.mpr fun hnone => ?_
    have hnil : (run steps draft.cleared).clauses = [] := List.isEmpty_iff.mp hnone
    rw [hclauses, hnil, List.append_nil] at happends
    exact Nat.lt_irrefl _ happends
  have hinside : run steps (draft.inner draft.known.scope) = (run steps draft.cleared).deeper :=
    run_deeper steps draft.cleared hfits
  refine ⟨(run steps draft.cleared).clauses, hclauses, ?_⟩
  calc draft.subquery (run steps)
    _ = (draft.absorbScope (run steps draft.cleared).deeper).push
          (.subquery (run steps draft.cleared).clauses) := by
        rw [subquery_eq, hfits.depthFault?]
        simp only [hinside]
        rfl
    _ = { run steps draft with
          clauses := draft.clauses ++ [.subquery (run steps draft.cleared).clauses] } := by
        rw [absorbScope_deeper (Continues.run steps draft.cleared), push_eq hsome, hdirect]

/-- A loop and a union in a block of their own, and a limit without a text. -/
def nestedSteps : List Step :=
  [.call (.unwind (.parameter "rows" (.list [])) { identifier := .name "row" }),
    .subquery [.token, .union .all
      [[.call (.merge { start := { identifier := .name "n" } })], [.call (.limit .anonymous)]]],
    .forEach (.name "row") (.parameter "rows" .null) [.delete true [.name "row"]]]

theorem subquery_eq_run_nestedSteps :
    ∃ body, (run nestedSteps (run [.token, .call (.use "neo4j")] {})).clauses =
        (run [.token, .call (.use "neo4j")] {}).clauses ++ body ∧
      (run [.token, .call (.use "neo4j")] {}).subquery (run nestedSteps) =
        { run nestedSteps (run [.token, .call (.use "neo4j")] {}) with
          clauses := (run [.token, .call (.use "neo4j")] {}).clauses ++ [.subquery body] } :=
  subquery_eq_run (by decide) (by decide)

end Draft

end GraphQuery
