import GraphQuery.Proofs.Draft.Uses

/-! # Trails

The uses that share the variables of a draft. Each of them finds the scope as the one before has
left it, from the first step to the last. -/

namespace GraphQuery

/-- Uses that follow one another from one scope to another. -/
inductive Trail : Scope → List Moment → Scope → Prop
  | done (scope : Scope) : Trail scope [] scope
  | use (moment : Moment) {rest : List Moment} {later : Scope}
      (hrest : Trail (moment.known.scope.use moment.mention).2 rest later) :
      Trail moment.known.scope (moment :: rest) later

namespace Trail

variable {scope between later : Scope} {used usedNext : List Moment}

theorem append (h : Trail scope used between) (hnext : Trail between usedNext later) :
    Trail scope (used ++ usedNext) later := by
  induction h with
  | done scope => exact hnext
  | use moment _ ih => exact .use moment (ih hnext)

theorem split (h : Trail scope (used ++ usedNext) later) :
    ∃ between, Trail scope used between ∧ Trail between usedNext later := by
  induction used generalizing scope with
  | nil => exact ⟨scope, .done scope, h⟩
  | cons moment rest ih =>
      cases h with
      | use moment hrest =>
          obtain ⟨between, hused, hnext⟩ := ih hrest
          exact ⟨between, .use moment hused, hnext⟩

/-- What each of the uses keeps holds after them. -/
theorem keeps (Inv : Scope → Prop) (h : Trail scope used later)
    (hkeeps : ∀ moment ∈ used, Inv moment.known.scope →
      Inv (moment.known.scope.use moment.mention).2) (hscope : Inv scope) : Inv later := by
  induction h with
  | done scope => exact hscope
  | use moment hrest ih =>
      obtain ⟨hmoment, hrest⟩ := List.forall_mem_cons.mp hkeeps
      exact ih hrest (hmoment hscope)

theorem sites (sites : List Site) (known : Vocabulary) :
    Trail known.scope (moments sites known)
      (Resolve.leaves (Resolve.ofSites sites) known).scope := by
  induction sites generalizing known with
  | nil => exact .done known.scope
  | cons first rest ih =>
      refine .use ⟨first.mention, known⟩ ?_
      rw [← Resolve.leaves_use, ← Resolve.leaves_ofSite, Resolve.leaves_ofSites_cons,
        Resolve.leaves]
      cases Resolve.ofSite first known with
      | ok _ after => exact ih after
      | error fault after => exact .done after.scope

end Trail

namespace Draft

/-! ## Own uses -/

mutual

def ownStepUses : Step → Draft → List Moment
  | .token, _ | .entity _, _ | .union _ _, _ => []
  | .call call, draft => draft.callUses call
  | .subquery body, draft =>
      match draft.depthFault? with
      | some _ => []
      | none => ownUses body (draft.inner draft.known.scope)
  | .forEach item list updates, draft => stepUses (.forEach item list updates) draft

/-- The uses in all steps and in subqueries and loops, but not in the branches of unions, which
have variables of their own. -/
def ownUses : List Step → Draft → List Moment
  | [], _ => []
  | first :: rest, draft => ownStepUses first draft ++ ownUses rest (step first draft)

end

section

variable (draft : Draft)

theorem mem_uses_of_mem_own {steps : List Step}
    (hsteps : ∀ s ∈ steps, ∀ draft, ownStepUses s draft ⊆ stepUses s draft) :
    ownUses steps draft ⊆ uses steps draft := by
  induction steps generalizing draft with
  | nil => exact List.Subset.refl []
  | cons first rest ih =>
      obtain ⟨hfirst, hrest⟩ := List.forall_mem_cons.mp hsteps
      intro moment hmoment
      rw [ownUses, List.mem_append] at hmoment
      exact List.mem_append.mpr (hmoment.imp (@hfirst draft moment) (@ih _ hrest moment))

theorem ownStepUses_subset (s : Step) : ownStepUses s draft ⊆ stepUses s draft := by
  induction s generalizing draft with
  | subquery body ihbody =>
      rw [ownStepUses, stepUses]
      cases draft.depthFault? with
      | some fault => exact List.Subset.refl []
      | none => exact mem_uses_of_mem_own _ fun s hs draft => ihbody s hs draft
  | union mode branches => exact List.nil_subset _
  | _ => exact List.Subset.refl _

theorem ownUses_subset (steps : List Step) : ownUses steps draft ⊆ uses steps draft :=
  mem_uses_of_mem_own draft fun s _ draft => ownStepUses_subset draft s

/-! ## Trails of runs -/

theorem trail_walk {α : Type} {sites : List Site} {action : Resolve α}
    (hwalks : Resolve.Walks sites action) :
    Trail draft.known.scope (moments sites draft.known)
      (draft.resolving action).2.known.scope := by
  rw [resolving_leaves draft hwalks]
  exact .sites sites draft.known

theorem trail_call (c : Call) :
    Trail draft.known.scope (draft.callUses c) (draft.call c).known.scope := by
  rw [call_known]
  exact trail_walk draft (.clause c)

/-- The step's own uses lead from the scope before it to the scope after it. -/
def LeavesTrail (s : Step) : Prop :=
  ∀ draft : Draft, Trail draft.known.scope (ownStepUses s draft) (step s draft).known.scope

theorem trail_run {steps : List Step} (hsteps : ∀ s ∈ steps, LeavesTrail s) :
    Trail draft.known.scope (ownUses steps draft) (run steps draft).known.scope := by
  induction steps generalizing draft with
  | nil => exact .done draft.known.scope
  | cons first rest ih =>
      obtain ⟨hfirst, hrest⟩ := List.forall_mem_cons.mp hsteps
      exact (hfirst draft).append (ih _ hrest)

theorem trail_updates (updates : List (Update Identifier)) :
    Trail draft.known.scope (updateUses updates draft)
      (run (Step.ofUpdates updates) draft).known.scope := by
  induction updates generalizing draft with
  | nil => exact .done draft.known.scope
  | cons change rest ih => exact (trail_call draft (.update change)).append (ih _)

theorem leavesTrail (s : Step) : LeavesTrail s := by
  induction s with
  | token => exact fun draft => .done draft.known.scope
  | entity typeName =>
      intro draft
      rw [step, issue_known]
      exact .done draft.known.scope
  | call c => exact fun draft => trail_call draft c
  | subquery body ihbody =>
      intro draft
      rw [step_subquery, ownStepUses]
      cases draft.depthFault? with
      | some fault => exact .done draft.known.scope
      | none =>
          simp only [push_known]
          exact trail_run (draft.inner draft.known.scope) ihbody
  | forEach item list updates =>
      intro draft
      rw [step_forEach, ownStepUses, stepUses]
      cases draft.depthFault? with
      | some fault => exact .done draft.known.scope
      | none =>
          refine (trail_walk draft (.heading item list)).append ?_
          rcases draft.resolving (heading item list) with ⟨fault | ⟨item, list⟩, after⟩
          · exact .done after.known.scope
          · simp only [push_known]
            exact trail_updates (after.inner after.known.scope) updates
  | union mode branches =>
      intro draft
      rw [step_union, ownStepUses]
      cases draft.depthFault? with
      | some fault => exact .done draft.known.scope
      | none =>
          simp only [push_known, runBranches_scope]
          exact .done draft.known.scope

theorem trail (steps : List Step) :
    Trail draft.known.scope (ownUses steps draft) (run steps draft).known.scope :=
  trail_run draft fun s _ => leavesTrail s

end

end Draft

end GraphQuery
