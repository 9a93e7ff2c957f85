import GraphQuery.Proofs.Draft.Equations
import GraphQuery.Proofs.Draft.Resolving

/-! # Events

What happens in the course of a run, in the order in which it happens: the tokens that are issued
and the calls that fail. What a block does comes before what becomes of the block itself, and
nothing happens inside a block that is never begun. -/

namespace GraphQuery

inductive Event
  | issued (token : Token)
  | failed (fault : Fault)

def Event.fault? : Event → Option Fault
  | .issued _ => none
  | .failed fault => some fault

/-- A fault that a call can have. -/
inductive Fault.OfCall : Fault → Prop
  | ofIdentifier {fault : Fault} (h : fault.OfIdentifier) : OfCall fault
  | emptyClause (keyword : Keyword) : OfCall (.emptyClause keyword)
  | nestingTooDeep (depth limit : Nat) : OfCall (.nestingTooDeep depth limit)

namespace Draft

/-- The event of appending a clause, which only is one when it fails. -/
def pushEvents (clause : Clause) : List Event :=
  if clause.isEmpty then [.failed (.emptyClause clause.keyword)] else []

def callEvents (draft : Draft) (call : Call) : List Event :=
  match (draft.resolving call.clause).1 with
  | .ok clause => pushEvents clause
  | .error fault => [.failed fault]

def updateEvents : List (Update Identifier) → Draft → List Event
  | [], _ => []
  | change :: rest, draft =>
      draft.callEvents (.update change) ++ updateEvents rest (draft.call (.update change))

mutual

def stepEvents : Step → Draft → List Event
  | .token, draft => [.issued draft.token.1]
  | .entity typeName, draft =>
      match draft.entity typeName with
      | .ok (entity, _) => [.issued entity.token]
      | .error _ => []
  | .call call, draft => draft.callEvents call
  | .subquery body, draft =>
      match draft.depthFault? with
      | some fault => [.failed fault]
      | none =>
          let inside := draft.inner draft.known.scope
          events body inside ++ pushEvents (.subquery (run body inside).clauses)
  | .forEach item list updates, draft =>
      match draft.depthFault? with
      | some fault => [.failed fault]
      | none =>
          match draft.resolving (heading item list) with
          | (.error fault, _) => [.failed fault]
          | (.ok (item, list), draft) =>
              let inside := draft.inner draft.known.scope
              updateEvents updates inside ++
                pushEvents (.forEach item list (run (Step.ofUpdates updates) inside).clauses)
  | .union mode branches, draft =>
      match draft.depthFault? with
      | some fault => [.failed fault]
      | none =>
          branchEvents branches draft ++
            pushEvents (.union mode (runBranches branches draft).2)

/-- What happens when the steps are taken in turn. -/
def events : List Step → Draft → List Event
  | [], _ => []
  | first :: rest, draft => stepEvents first draft ++ events rest (step first draft)

def branchEvents : List (List Step) → Draft → List Event
  | [], _ => []
  | branch :: rest, draft =>
      let inside := run branch (draft.inner {})
      events branch (draft.inner {}) ++ branchEvents rest (draft.absorb inside)

end

def faults (happened : List Event) : List Fault := happened.filterMap Event.fault?

theorem faults_append (before after : List Event) :
    faults (before ++ after) = faults before ++ faults after :=
  List.filterMap_append

/-- The faults of all calls that fail in a run, wherever in the tree of blocks they stand. -/
def failures (steps : List Step) (draft : Draft) : List Fault := faults (events steps draft)

theorem events_ofUpdates (updates : List (Update Identifier)) (draft : Draft) :
    events (Step.ofUpdates updates) draft = updateEvents updates draft := by
  induction updates generalizing draft with
  | nil => rfl
  | cons change rest ih => exact congrArg (draft.callEvents (.update change) ++ ·) (ih _)

/-! ## The recorded fault -/

def earliest (happened : List Event) : Option Fault := (faults happened).head?

theorem earliest_append (before after : List Event) :
    earliest (before ++ after) = (earliest before).or (earliest after) := by
  rw [earliest, faults_append, List.head?_append]
  rfl

variable (draft : Draft)

theorem fail_fault (fault : Fault) : (draft.fail fault).fault = draft.fault.or (some fault) :=
  Option.orElse_eq_or

theorem push_fault (clause : Clause) :
    (draft.push clause).fault = draft.fault.or (earliest (pushEvents clause)) := by
  unfold push pushEvents
  split
  · exact fail_fault draft _
  · exact Option.or_none.symm

theorem call_fault (call : Call) :
    (draft.call call).fault = draft.fault.or (earliest (draft.callEvents call)) := by
  unfold Draft.call callEvents
  rcases hresult : draft.resolving call.clause with ⟨fault | clause, middle⟩
  · obtain ⟨known, rfl⟩ := resolving_known hresult
    exact fail_fault { draft with known } fault
  · obtain ⟨known, rfl⟩ := resolving_known hresult
    exact push_fault { draft with known } clause

/-- What happens in a block comes before what becomes of the block. -/
theorem fold_fault {inside : Draft} {happened : List Event}
    (hinside : inside.fault = earliest happened) (clause : Clause) :
    ((draft.absorbScope inside).push clause).fault =
      draft.fault.or (earliest (happened ++ pushEvents clause)) := by
  have habsorb : (draft.absorbScope inside).fault = draft.fault.or inside.fault :=
    Option.orElse_eq_or
  rw [push_fault, earliest_append, habsorb, hinside]
  exact Option.or_assoc

/-! ## Steps and runs -/

/-- The step leaves the fault there is, or else the earliest that happens. -/
def KeepsEarliest (s : Step) : Prop :=
  ∀ draft : Draft, (step s draft).fault = draft.fault.or (earliest (stepEvents s draft))

theorem run_fault_of_keeps {steps : List Step} (hsteps : ∀ s ∈ steps, KeepsEarliest s) :
    (run steps draft).fault = draft.fault.or (earliest (events steps draft)) := by
  induction steps generalizing draft with
  | nil => exact Option.or_none.symm
  | cons first rest ih =>
      obtain ⟨hfirst, hrest⟩ := List.forall_mem_cons.mp hsteps
      rw [run_cons, ih _ hrest, hfirst, events, earliest_append]
      exact Option.or_assoc

theorem runBranches_fault_of_keeps {branches : List (List Step)}
    (hbranches : ∀ branch ∈ branches, ∀ s ∈ branch, KeepsEarliest s) :
    (runBranches branches draft).1.fault =
      draft.fault.or (earliest (branchEvents branches draft)) := by
  induction branches generalizing draft with
  | nil => exact Option.or_none.symm
  | cons branch rest ih =>
      obtain ⟨hbranch, hrest⟩ := List.forall_mem_cons.mp hbranches
      have hinside : (run branch (draft.inner {})).fault =
          earliest (events branch (draft.inner {})) := run_fault_of_keeps _ hbranch
      have habsorb : (draft.absorb (run branch (draft.inner {}))).fault =
          draft.fault.or (run branch (draft.inner {})).fault := Option.orElse_eq_or
      simp only [runBranches, branchEvents, ih _ hrest, earliest_append, habsorb, hinside]
      exact Option.or_assoc

theorem step_call_keeps (call : Call) : KeepsEarliest (.call call) :=
  fun draft => call_fault draft call

theorem run_updates_fault (updates : List (Update Identifier)) :
    (run (Step.ofUpdates updates) draft).fault =
      draft.fault.or (earliest (updateEvents updates draft)) := by
  rw [← events_ofUpdates]
  exact run_fault_of_keeps draft (Step.forall_mem_ofUpdates step_call_keeps updates)

theorem keepsEarliest (s : Step) : KeepsEarliest s := by
  induction s with
  | token => exact fun draft => Option.or_none.symm
  | entity typeName =>
      intro draft
      simp only [step, issue, stepEvents, entity]
      cases draft.catalog.describe typeName <;> exact Option.or_none.symm
  | call call => exact step_call_keeps call
  | subquery body ihbody =>
      intro draft
      rw [step_subquery, stepEvents]
      cases draft.depthFault? with
      | some fault => exact fail_fault draft fault
      | none => exact fold_fault draft (run_fault_of_keeps _ ihbody) _
  | forEach item list updates =>
      intro draft
      rw [step_forEach, stepEvents]
      cases draft.depthFault? with
      | some fault => exact fail_fault draft fault
      | none =>
          rcases hresult : draft.resolving (heading item list) with
            ⟨fault | ⟨item, list⟩, middle⟩
          · obtain ⟨known, rfl⟩ := resolving_known hresult
            exact fail_fault { draft with known } fault
          · obtain ⟨known, rfl⟩ := resolving_known hresult
            exact fold_fault { draft with known } (run_updates_fault _ updates) _
  | union mode branches ihbranches =>
      intro draft
      rw [step_union, stepEvents]
      cases draft.depthFault? with
      | some fault => exact fail_fault draft fault
      | none =>
          simp only [push_fault, runBranches_fault_of_keeps draft ihbranches, earliest_append]
          exact Option.or_assoc

/-- Of all failures in a run the first is recorded, unless there was a fault before. -/
theorem run_fault (steps : List Step) :
    (run steps draft).fault = draft.fault.or (failures steps draft).head? :=
  run_fault_of_keeps draft fun s _ => keepsEarliest s

/-! ## Where nothing fails -/

section

variable {draft}

/-- Where there was no fault before, a run ends without one just where nothing fails in it. -/
theorem run_fault_eq_none_iff {steps : List Step} (hfresh : draft.fault = none) :
    (run steps draft).fault = none ↔ failures steps draft = [] := by
  rw [run_fault, hfresh, Option.none_or, List.head?_eq_none_iff]

theorem faults_append_eq_nil_iff {before after : List Event} :
    faults (before ++ after) = [] ↔ faults before = [] ∧ faults after = [] := by
  rw [faults_append, List.append_eq_nil_iff]

theorem isEmpty_of_calm {clause : Clause} (h : faults (pushEvents clause) = []) :
    clause.isEmpty = false := by
  refine Bool.eq_false_iff.mpr fun hempty => ?_
  simp [pushEvents, hempty, faults, Event.fault?] at h

theorem push_calm {clause : Clause} (h : faults (pushEvents clause) = []) :
    (draft.push clause).clauses = draft.clauses ++ [clause] := by
  rw [push_eq (isEmpty_of_calm h)]

theorem call_calm {c : Call} (h : faults (stepEvents (.call c) draft) = []) :
    ∃ clause known, c.clause draft.known = .ok clause known ∧
      faults (pushEvents clause) = [] ∧ draft.call c = { draft with known }.push clause := by
  simp only [stepEvents, callEvents, call] at h ⊢
  rcases hresult : draft.resolving c.clause with ⟨fault | clause, middle⟩
  · simp [hresult, faults, Event.fault?] at h
  · obtain ⟨known, hclause, rfl⟩ := resolving_ok hresult
    rw [hresult] at h
    exact ⟨clause, known, hclause, h, rfl⟩

theorem subquery_calm {body : List Step} (h : faults (stepEvents (.subquery body) draft) = []) :
    draft.depthFault? = none ∧ failures body (draft.inner draft.known.scope) = [] ∧
      faults (pushEvents (.subquery (run body (draft.inner draft.known.scope)).clauses)) = [] := by
  rw [stepEvents] at h
  cases hdepth : draft.depthFault? with
  | some fault => simp [hdepth, faults, Event.fault?] at h
  | none =>
      rw [hdepth] at h
      exact ⟨rfl, faults_append_eq_nil_iff.mp h⟩

theorem forEach_calm {item list : Identifier} {updates : List (Update Identifier)}
    (h : faults (stepEvents (.forEach item list updates) draft) = []) :
    draft.depthFault? = none ∧ ∃ texts known,
      heading item list draft.known = .ok texts known ∧
      draft.resolving (heading item list) = (.ok texts, { draft with known }) ∧
      let inside := { draft with known }.inner known.scope
      faults (updateEvents updates inside) = [] ∧
        faults (pushEvents
          (.forEach texts.1 texts.2 (run (Step.ofUpdates updates) inside).clauses)) = [] := by
  rw [stepEvents] at h
  cases hdepth : draft.depthFault? with
  | some fault => simp [hdepth, faults, Event.fault?] at h
  | none =>
      rw [hdepth] at h
      rcases hresult : draft.resolving (heading item list) with ⟨fault | texts, middle⟩
      · simp [hresult, faults, Event.fault?] at h
      · obtain ⟨known, hheading, rfl⟩ := resolving_ok hresult
        rw [hresult] at h
        exact ⟨rfl, texts, known, hheading, rfl, faults_append_eq_nil_iff.mp h⟩

theorem union_calm {mode : UnionMode} {branches : List (List Step)}
    (h : faults (stepEvents (.union mode branches) draft) = []) :
    draft.depthFault? = none ∧ faults (branchEvents branches draft) = [] ∧
      faults (pushEvents (.union mode (runBranches branches draft).2)) = [] := by
  rw [stepEvents] at h
  cases hdepth : draft.depthFault? with
  | some fault => simp [hdepth, faults, Event.fault?] at h
  | none =>
      rw [hdepth] at h
      exact ⟨rfl, faults_append_eq_nil_iff.mp h⟩

end

/-! ## Kinds of failures -/

/-- Every failure among the events is one that calls can have. -/
def FailsByCalls (happened : List Event) : Prop :=
  ∀ fault ∈ faults happened, fault.OfCall

theorem FailsByCalls.append {before after : List Event} (hbefore : FailsByCalls before)
    (hafter : FailsByCalls after) : FailsByCalls (before ++ after) := by
  unfold FailsByCalls
  rw [faults_append]
  exact List.forall_mem_append.mpr ⟨hbefore, hafter⟩

theorem FailsByCalls.nil : FailsByCalls [] := List.forall_mem_nil _

theorem FailsByCalls.failed {fault : Fault} (h : fault.OfCall) : FailsByCalls [.failed fault] :=
  List.forall_mem_singleton.mpr h

theorem failsByCalls_push (clause : Clause) : FailsByCalls (pushEvents clause) := by
  unfold pushEvents
  split
  · exact .failed (.emptyClause clause.keyword)
  · exact .nil

theorem resolving_ofCall {α : Type} {action : Resolve α} (haction : Resolve.Scoped action)
    {fault : Fault} {after : Draft} (h : draft.resolving action = (.error fault, after)) :
    fault.OfCall := by
  obtain ⟨known, hfault, -⟩ := resolving_error h
  exact .ofIdentifier (haction.error_ofIdentifier hfault)

theorem failsByCalls_call (call : Call) : FailsByCalls (draft.callEvents call) := by
  unfold callEvents
  rcases hresult : draft.resolving call.clause with ⟨fault | clause, middle⟩
  · exact .failed (resolving_ofCall draft (.clause call) hresult)
  · exact failsByCalls_push clause

theorem failsByCalls_updates (updates : List (Update Identifier)) :
    FailsByCalls (updateEvents updates draft) := by
  induction updates generalizing draft with
  | nil => exact .nil
  | cons change rest ih => exact (failsByCalls_call draft _).append (ih _)

theorem depthFault?_ofCall {fault : Fault} (h : draft.depthFault? = some fault) :
    fault.OfCall := by
  unfold depthFault? at h
  split at h
  · cases h
  · cases h
    exact .nestingTooDeep _ _

theorem failsByCalls_run {steps : List Step}
    (hsteps : ∀ s ∈ steps, ∀ draft, FailsByCalls (stepEvents s draft)) :
    FailsByCalls (events steps draft) := by
  induction steps generalizing draft with
  | nil => exact .nil
  | cons first rest ih =>
      obtain ⟨hfirst, hrest⟩ := List.forall_mem_cons.mp hsteps
      exact (hfirst draft).append (ih _ hrest)

theorem failsByCalls_branches {branches : List (List Step)}
    (hbranches : ∀ branch ∈ branches, ∀ s ∈ branch, ∀ draft, FailsByCalls (stepEvents s draft)) :
    FailsByCalls (branchEvents branches draft) := by
  induction branches generalizing draft with
  | nil => exact .nil
  | cons branch rest ih =>
      obtain ⟨hbranch, hrest⟩ := List.forall_mem_cons.mp hbranches
      exact (failsByCalls_run _ hbranch).append (ih _ hrest)

theorem failsByCalls_step (s : Step) : FailsByCalls (stepEvents s draft) := by
  induction s generalizing draft with
  | token => exact .nil
  | entity typeName =>
      rw [stepEvents]
      cases draft.entity typeName <;> exact .nil
  | call call => exact failsByCalls_call draft call
  | subquery body ihbody =>
      rw [stepEvents]
      cases hdepth : draft.depthFault? with
      | some fault => exact .failed (depthFault?_ofCall draft hdepth)
      | none =>
          exact (failsByCalls_run _ fun s hs draft => ihbody s hs draft).append
            (failsByCalls_push _)
  | forEach item list updates =>
      rw [stepEvents]
      cases hdepth : draft.depthFault? with
      | some fault => exact .failed (depthFault?_ofCall draft hdepth)
      | none =>
          rcases hresult : draft.resolving (heading item list) with ⟨fault | heading, middle⟩
          · exact .failed (resolving_ofCall draft (.heading item list) hresult)
          · exact (failsByCalls_updates _ updates).append (failsByCalls_push _)
  | union mode branches ihbranches =>
      rw [stepEvents]
      cases hdepth : draft.depthFault? with
      | some fault => exact .failed (depthFault?_ofCall draft hdepth)
      | none =>
          exact (failsByCalls_branches draft fun branch hbranch s hs draft =>
            ihbranches branch hbranch s hs draft).append (failsByCalls_push _)

/-- Nothing but an identifier, an empty clause or the depth of a block makes a call fail. -/
theorem failures_ofCall (steps : List Step) : ∀ fault ∈ failures steps draft, fault.OfCall :=
  failsByCalls_run draft fun s _ draft => failsByCalls_step draft s

end Draft

end GraphQuery
