import GraphQuery.Proofs.Clause.Bindings
import GraphQuery.Proofs.Draft.Outline
import GraphQuery.Proofs.Draft.Uses

/-! # Returns

The uses whose columns a query returns: those in the RETURN clauses of its own sequence and of the
branches of its unions. -/

namespace GraphQuery

namespace Resolve

/-- A column is named by what refers to the variable of its use. -/
theorem column_use {mention : Mention} {known after : Vocabulary} {result : Column}
    (h : column mention known = .ok result after) :
    ∃ used later name, known.scope.use mention = (.ok used, later) ∧
      used.found.reference? = some name ∧
      result = ⟨used.columnText name, name, used.found.destination⟩ := by
  obtain ⟨used, middle, hused, hcolumn⟩ := bind_ok h
  rw [use_eq] at hused
  cases hresult : known.scope.use mention with
  | mk outcome later =>
      cases outcome with
      | error fault =>
          rw [hresult] at hused
          cases hused
      | ok found =>
          rw [hresult] at hused
          cases hused
          cases hreference : used.found.reference? with
          | none =>
              rw [hreference] at hcolumn
              cases hcolumn
          | some name =>
              rw [hreference] at hcolumn
              cases hcolumn
              exact ⟨used, later, name, rfl, hreference, rfl⟩

theorem column_ok {mention : Mention} {known after : Vocabulary} {result : Column}
    (h : column mention known = .ok result after) :
    ∃ used later, known.scope.use mention = (.ok used, later) ∧
      result.destination = used.found.destination := by
  obtain ⟨used, later, name, hused, -, rfl⟩ := column_use h
  exact ⟨used, later, hused, rfl⟩

/-- Columns that are resolved in turn are the results of as many uses. -/
theorem columns_ok {items : List Mention} {columns : List Column} {known after : Vocabulary}
    (h : items.mapM column known = .ok columns after) :
    (moments (items.map .text) known).map (Moment.result? · column) = columns.map some := by
  induction items generalizing columns known with
  | nil =>
      cases h
      rfl
  | cons first rest ih =>
      rw [List.mapM_cons] at h
      obtain ⟨result, middle, hfirst, h⟩ := bind_ok h
      obtain ⟨results, last, hrest, h⟩ := bind_ok h
      cases h
      have hsite : ofSite (.text first) known = .ok () middle := by
        rw [← effect_column, effect_ok hfirst]
      have hresult : Moment.result? ⟨first, known⟩ column = some result := by
        simp only [Moment.result?, hfirst]
      simp only [List.map_cons, moments, hsite, ih hrest]
      exact congrArg (· :: results.map some) hresult

/-- Of all calls only a RETURN makes a clause that returns anything. -/
theorem yields_nothing {call : Call}
    (hother : ∀ distinct items, call ≠ .project .returning distinct items) :
    Yields (fun clause => clause.returned = []) call.clause := by
  cases call with
  | project verb distinct items =>
      cases verb with
      | returning => exact absurd rfl (hother distinct items)
      | passing => exact .map fun _ => rfl
  | unwind list item => exact .next fun _ => .map fun _ => rfl
  | use _ | call _ | showCommand _ | rawText _ => exact .pure rfl
  | _ => exact .map fun _ => rfl

end Resolve

/-- The items of a call that become columns of the query. -/
def Call.returnedItems : Call → List Mention
  | .project .returning _ items => items
  | _ => []

theorem Call.returned_clause {call : Call} {clause : Clause} {known after : Vocabulary}
    (h : call.clause known = .ok clause after) :
    (moments (call.returnedItems.map .text) known).map (Moment.result? · Resolve.column) =
      clause.returned.map some := by
  unfold Call.returnedItems
  split
  · obtain ⟨columns, middle, hcolumns, hclause⟩ := Resolve.bind_ok h
    cases hclause
    exact Resolve.columns_ok hcolumns
  · next hother =>
      rw [Resolve.yields_nothing hother known clause after h]
      rfl

namespace Draft

variable (draft : Draft)

def callReturns (call : Call) : List Moment :=
  match (draft.resolving call.clause).1 with
  | .ok _ => moments (call.returnedItems.map .text) draft.known
  | .error _ => []

mutual

def stepReturns : Step → Draft → List Moment
  | .call call, draft => draft.callReturns call
  | .union _ branches, draft =>
      match draft.depthFault? with
      | some _ => []
      | none => branchReturns branches draft
  | .token, _ | .entity _, _ | .subquery _, _ | .forEach _ _ _, _ => []

/-- The uses that are items of a RETURN clause, in the order of the clauses. -/
def returns : List Step → Draft → List Moment
  | [], _ => []
  | first :: rest, draft => stepReturns first draft ++ returns rest (step first draft)

def branchReturns : List (List Step) → Draft → List Moment
  | [], _ => []
  | branch :: rest, draft =>
      returns branch (draft.inner {}) ++
        branchReturns rest (draft.absorb (run branch (draft.inner {})))

end

/-! ## Returned columns -/

theorem push_returned (clause : Clause) :
    Clause.returnedOfAll (draft.push clause).clauses =
      Clause.returnedOfAll draft.clauses ++ clause.returned := by
  unfold push
  split
  · next hempty =>
      rw [Clause.returned_eq_nil_of_isEmpty hempty]
      exact (List.append_nil _).symm
  · rw [Clause.returnedOfAll_append, Clause.returnedOfAll, Clause.returnedOfAll, List.append_nil]

/-- The step returns the columns that its items result in. -/
def ReturnsColumns (s : Step) : Prop :=
  ∀ draft : Draft, (Clause.returnedOfAll (step s draft).clauses).map some =
    (Clause.returnedOfAll draft.clauses).map some ++
      (stepReturns s draft).map (Moment.result? · Resolve.column)

theorem returnsColumns_call (call : Call) : ReturnsColumns (.call call) := by
  intro draft
  simp only [step, Draft.call, stepReturns, callReturns]
  rcases hresult : draft.resolving call.clause with ⟨fault | clause, after⟩
  · obtain ⟨known, -, rfl⟩ := resolving_error hresult
    exact (List.append_nil _).symm
  · obtain ⟨known, hclause, rfl⟩ := resolving_ok hresult
    rw [push_returned, List.map_append]
    exact congrArg (_ ++ ·) (Call.returned_clause hclause).symm

theorem run_returned_of_columns {steps : List Step} (hsteps : ∀ s ∈ steps, ReturnsColumns s) :
    (Clause.returnedOfAll (run steps draft).clauses).map some =
      (Clause.returnedOfAll draft.clauses).map some ++
        (returns steps draft).map (Moment.result? · Resolve.column) := by
  induction steps generalizing draft with
  | nil => exact (List.append_nil _).symm
  | cons first rest ih =>
      obtain ⟨hfirst, hrest⟩ := List.forall_mem_cons.mp hsteps
      rw [run_cons, ih _ hrest, hfirst, returns, List.map_append, List.append_assoc]

theorem branches_returned_of_columns {branches : List (List Step)}
    (hbranches : ∀ branch ∈ branches, ∀ s ∈ branch, ReturnsColumns s) :
    (Clause.returnedOfBranches (runBranches branches draft).2).map some =
      (branchReturns branches draft).map (Moment.result? · Resolve.column) := by
  induction branches generalizing draft with
  | nil => rfl
  | cons branch rest ih =>
      obtain ⟨hbranch, hrest⟩ := List.forall_mem_cons.mp hbranches
      have hinside := run_returned_of_columns (draft.inner {}) hbranch
      have hnone : Clause.returnedOfAll (draft.inner {}).clauses = [] := rfl
      rw [hnone, List.map_nil, List.nil_append] at hinside
      simp only [runBranches, Clause.returnedOfBranches, branchReturns, List.map_append, hinside,
        ih _ hrest]

theorem returnsColumns (s : Step) : ReturnsColumns s := by
  induction s with
  | token => exact fun draft => (List.append_nil _).symm
  | entity typeName =>
      intro draft
      simp only [step, issue, entity]
      cases draft.catalog.describe typeName <;> exact (List.append_nil _).symm
  | call call => exact returnsColumns_call call
  | subquery body _ =>
      intro draft
      rw [step_subquery]
      cases draft.depthFault? with
      | some fault => exact (List.append_nil _).symm
      | none =>
          simp only [push_returned, Clause.returned, List.append_nil]
          exact (List.append_nil _).symm
  | forEach item list updates =>
      intro draft
      rw [step_forEach]
      cases draft.depthFault? with
      | some fault => exact (List.append_nil _).symm
      | none =>
          rcases hresult : draft.resolving (heading item list) with
            ⟨fault | ⟨item, list⟩, middle⟩
          · obtain ⟨known, rfl⟩ := resolving_known hresult
            exact (List.append_nil _).symm
          · obtain ⟨known, rfl⟩ := resolving_known hresult
            simp only [push_returned, Clause.returned, List.append_nil]
            exact (List.append_nil _).symm
  | union mode branches ihbranches =>
      intro draft
      rw [step_union, stepReturns]
      cases draft.depthFault? with
      | some fault => exact (List.append_nil _).symm
      | none =>
          simp only [push_returned, Clause.returned, runBranches_clauses, List.map_append,
            branches_returned_of_columns draft ihbranches]

/-- The columns a run returns are what its items result in. -/
theorem run_returned (steps : List Step) :
    (Clause.returnedOfAll (run steps draft).clauses).map some =
      (Clause.returnedOfAll draft.clauses).map some ++
        (returns steps draft).map (Moment.result? · Resolve.column) :=
  run_returned_of_columns draft fun s _ => returnsColumns s

theorem exists_returned {steps : List Step} {moment : Moment} (h : moment ∈ returns steps draft) :
    ∃ column ∈ Clause.returnedOfAll (run steps draft).clauses,
      moment.result? Resolve.column = some column := by
  have hmem : moment.result? Resolve.column ∈
      (Clause.returnedOfAll (run steps draft).clauses).map some := by
    rw [run_returned]
    exact List.mem_append_right _ (List.mem_map_of_mem h)
  obtain ⟨column, hcolumn, heq⟩ := List.mem_map.mp hmem
  exact ⟨column, hcolumn, heq.symm⟩

/-! ## Returns among the uses -/

theorem callReturns_sublist (call : Call) :
    (draft.callReturns call).Sublist (draft.callUses call) := by
  unfold callReturns callUses Call.returnedItems
  split
  · split
    · exact List.Sublist.refl _
    · exact List.nil_sublist _
  · exact List.nil_sublist _

theorem returns_sublist_of_steps {steps : List Step}
    (hsteps : ∀ s ∈ steps, ∀ draft, (stepReturns s draft).Sublist (stepUses s draft)) :
    (returns steps draft).Sublist (uses steps draft) := by
  induction steps generalizing draft with
  | nil => exact List.Sublist.refl _
  | cons first rest ih =>
      obtain ⟨hfirst, hrest⟩ := List.forall_mem_cons.mp hsteps
      exact (hfirst draft).append (ih _ hrest)

theorem branchReturns_sublist_of_steps {branches : List (List Step)}
    (hbranches : ∀ branch ∈ branches, ∀ s ∈ branch, ∀ draft,
      (stepReturns s draft).Sublist (stepUses s draft)) :
    (branchReturns branches draft).Sublist (branchUses branches draft) := by
  induction branches generalizing draft with
  | nil => exact List.Sublist.refl _
  | cons branch rest ih =>
      obtain ⟨hbranch, hrest⟩ := List.forall_mem_cons.mp hbranches
      exact (returns_sublist_of_steps _ hbranch).append (ih _ hrest)

theorem stepReturns_sublist (s : Step) (draft : Draft) :
    (stepReturns s draft).Sublist (stepUses s draft) := by
  induction s generalizing draft with
  | call call => exact callReturns_sublist draft call
  | union mode branches ihbranches =>
      rw [stepReturns, stepUses]
      cases draft.depthFault? with
      | some fault => exact List.nil_sublist _
      | none => exact branchReturns_sublist_of_steps draft ihbranches
  | _ => exact List.nil_sublist _

theorem returns_sublist_uses (steps : List Step) :
    (returns steps draft).Sublist (uses steps draft) :=
  returns_sublist_of_steps draft fun s _ draft => stepReturns_sublist s draft

end Draft

end GraphQuery
