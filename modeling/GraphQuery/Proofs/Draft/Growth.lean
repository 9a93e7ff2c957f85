import GraphQuery.Proofs.Clause.Layout
import GraphQuery.Proofs.Draft.History
import GraphQuery.Proofs.Text.Line

/-! # Growth

A call appends to what there is and changes none of it, since a clause is text when it is
appended. So a query that compiles goes on where any query before it in its run ends. -/

namespace GraphQuery

/-! ## More clauses -/

namespace Clause

/-- Clauses stand in their places whatever comes after them. -/
theorem checkFrom_of_append {previous : Option Keyword} {clauses later : List Clause}
    (h : checkFrom previous (clauses ++ later) = .ok ()) : checkFrom previous clauses = .ok () := by
  induction clauses generalizing previous with
  | nil => rfl
  | cons clause rest ih =>
      rw [List.cons_append, checkFrom] at h
      rw [checkFrom]
      split at h
      · next hmay =>
          rw [if_pos hmay]
          cases hinside : clause.checkInside with
          | error fault =>
              rw [hinside] at h
              cases h
          | ok _ =>
              rw [hinside] at h
              exact ih h
      · cases h

end Clause

namespace Query

/-- The longer query begins with the other one. -/
structure Extends (longer query : Query) : Prop where
  lines : Text.lines query.text <+: Text.lines longer.text
  bindings : query.bindings <+: longer.bindings
  parameters : query.parameters.keys <+: longer.parameters.keys

theorem ofPlaced_extends (clauses later : List Clause) (parameters : OrderedMap String Value)
    (entries : List (String × Value)) :
    (ofPlaced (clauses ++ later) (parameters.insertAll entries)).Extends
      (ofPlaced clauses parameters) where
  lines := by
    simp only [ofPlaced, Clause.textAll, Clause.linesAll_append]
    exact Text.lines_joinWith_prefix _ _
  bindings := by
    simp only [ofPlaced, Clause.bindingsOfAll_eq, Clause.returnedOfAll_append, addBindings_append]
    exact prefix_addBindings _ _
  parameters := OrderedMap.keys_prefix_insertAll parameters entries

end Query

/-! ## Longer runs -/

namespace Draft

/-- If a draft compiles after any more steps then it compiles before them, to a query that the
longer one begins with, and it has the same clauses to begin with. -/
theorem compile_extends {draft : Draft} {steps : List Step} {longer : Query}
    (h : (run steps draft).compile = .ok longer) :
    draft.clauses <+: (run steps draft).clauses ∧
      ∃ query, draft.compile = .ok query ∧ longer.Extends query := by
  obtain ⟨hfault, hplaced, rfl⟩ := compile_eq_ok_iff.mp h
  -- What the steps do does not depend on what there is already: it only comes after that.
  have hrun : run steps draft = draft.onto (run steps draft.cleared) := run_eq_onto steps draft
  have hclauses : (run steps draft).clauses =
      draft.clauses ++ (run steps draft.cleared).clauses := by
    rw [hrun]
    rfl
  have hparameters : (run steps draft).known.parameters =
      draft.known.parameters.insertAll (run steps draft.cleared).known.parameters.entries := by
    rw [hrun]
    rfl
  have hnone : draft.fault = none := by
    have honto : (draft.fault <|> (run steps draft.cleared).fault) = none := by
      rw [hrun] at hfault
      exact hfault
    cases hdraft : draft.fault with
    | none => rfl
    | some fault =>
        rw [hdraft] at honto
        cases honto
  rw [hclauses] at hplaced
  refine ⟨hclauses ▸ List.prefix_append _ _, draft.query, ?_, ?_⟩
  · exact compile_eq_ok_iff.mpr ⟨hnone, Clause.checkFrom_of_append hplaced, rfl⟩
  · rw [query, hclauses, hparameters]
    exact Query.ofPlaced_extends _ _ _ _

/-- A column is returned by a token and a parameter mentioned. -/
def startedSteps : List Step :=
  [.token,
    .call (.unwind (.parameter "rows" (.list [])) { identifier := .name "n" }),
    .call (.project .returning false [{ identifier := .name "n", bind := some ⟨1⟩ }])]

/-- The column's variable is renamed and bound to another token, in a block, and the parameter
given another value. -/
def continuedSteps : List Step :=
  [.token,
    .call (.limit (.parameter "rows" .null)),
    .subquery [.call (.project .passing false
      [{ identifier := .ofToken ⟨1⟩, qualifier := some "m" }])],
    .call (.project .returning true
      [{ identifier := .ofToken ⟨1⟩, bind := some ⟨2⟩ }, { identifier := .name "n" }])]

theorem compile_extends_continuedSteps :
    ∃ longer, (run continuedSteps (run startedSteps {})).compile = .ok longer ∧
      (run startedSteps {}).clauses <+:
        (run continuedSteps (run startedSteps {})).clauses ∧
      ∃ query, (run startedSteps {}).compile = .ok query ∧ longer.Extends query :=
  ⟨_, rfl, compile_extends rfl⟩

end Draft

end GraphQuery
