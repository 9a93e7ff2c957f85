import GraphQuery.Proofs.Draft.Outline

/-! # Outcomes of programs

Whatever a program does after its first failure, that failure is what it comes to. One in which
nothing fails leaves out no clause. -/

namespace GraphQuery

namespace Draft

/-- If anything fails in a run, in whatever block, the query compiles to the first failure, whatever
comes after it. If nothing does, each call has its clause where the call stands. -/
theorem first_failure_wins (catalog : Catalog) (settings : Settings) (steps : List Step) :
    (∀ first later, failures steps { catalog, settings } = first :: later →
      (run steps { catalog, settings }).compile = .error first) ∧
    (failures steps { catalog, settings } = [] →
      Clause.outlineAll (run steps { catalog, settings }).clauses = Step.outlineAll steps) ∧
    ∀ fault ∈ failures steps { catalog, settings }, fault.OfCall := by
  refine ⟨fun first later hfailures => ?_, fun hcalm => ?_, failures_ofCall _ steps⟩
  · have hfault : (run steps { catalog, settings }).fault = some first := by
      rw [run_fault, hfailures]
      rfl
    rw [compile, hfault]
  · exact run_outline_of_mirrors _ (fun s _ => mirrors s) hcalm

/-- A limit without a text, two blocks deep after a misplaced skip. -/
def failingSteps : List Step :=
  [.call (.skip (.name "1")),
    .subquery [.token, .subquery [.call (.limit .anonymous)]],
    .call (.orderBy []),
    .call (.rawText "RETURN 1")]

/-- Blocks of all kinds in each other. -/
def calmSteps : List Step :=
  [.call (.unwind (.parameter "rows" (.list [])) { identifier := .name "row" }),
    .subquery [.token, .union .all
      [[.call (.merge { start := { identifier := .name "n" } }), .call (.limit (.name "1"))],
        [.forEach (.name "row") (.name "rows") [.delete true [.name "row"]]]]]]

theorem first_failure_wins_failingSteps :
    (run failingSteps {}).compile = .error (.unresolvedIdentifier "()") ∧
    Clause.outlineAll (run calmSteps {}).clauses = Step.outlineAll calmSteps ∧
    Fault.OfCall (.emptyClause .orderBy) :=
  ⟨(first_failure_wins {} {} failingSteps).1 _
      [.emptyClause .subquery, .emptyClause .subquery, .emptyClause .orderBy] (by decide),
    (first_failure_wins {} {} calmSteps).2.1 (by decide),
    (first_failure_wins {} {} failingSteps).2.2 _ (by decide)⟩

end Draft

end GraphQuery
