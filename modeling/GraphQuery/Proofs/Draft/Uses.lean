import GraphQuery.Proofs.Draft.Equations
import GraphQuery.Proofs.Draft.Mentions
import GraphQuery.Proofs.Draft.Use

/-! # Uses

The mentions that a run resolves, in the order in which it does, each with what is known at the
time. What holds of the variables at first, and what every use keeps, holds at every use. -/

namespace GraphQuery

/-- A mention at the point of a run where it is used. -/
structure Moment where
  mention : Mention
  known : Vocabulary

/-- What an action on the mention results in at that point. -/
def Moment.result? {α : Type} (moment : Moment) (action : Mention → Resolve α) : Option α :=
  match action moment.mention moment.known with
  | .ok result _ => some result
  | .error _ _ => none

/-- The uses of sites that are resolved in turn, the first that fails being the last. -/
def moments : List Site → Vocabulary → List Moment
  | [], _ => []
  | first :: rest, known =>
      ⟨first.mention, known⟩ ::
        match Resolve.ofSite first known with
        | .ok _ after => moments rest after
        | .error _ _ => []

namespace Resolve

variable {α : Type}

/-- What is known after the action, whether it fails or not. -/
def leaves (action : Resolve α) (known : Vocabulary) : Vocabulary :=
  match action known with
  | .ok _ after | .error _ after => after

theorem leaves_effect (action : Resolve α) (known : Vocabulary) :
    leaves (effect action) known = leaves action known := by
  simp only [leaves, effect, Bind.bind, EStateM.bind]
  cases action known <;> rfl

theorem reference_ok {mention : Mention} {known after : Vocabulary} {used : Use} {text : String}
    (hused : use mention known = .ok used after) (hreference : used.found.reference? = some text) :
    reference mention known = .ok text after := by
  simp only [reference, Bind.bind, EStateM.bind, hused, hreference]
  rfl

theorem leaves_reference (mention : Mention) (known : Vocabulary) :
    leaves (reference mention) known = leaves (use mention) known := by
  simp only [leaves, reference, Bind.bind, EStateM.bind]
  cases use mention known with
  | error fault after => rfl
  | ok used after =>
      dsimp only
      cases used.found.reference? <;> rfl

theorem leaves_ofSite (site : Site) (known : Vocabulary) :
    leaves (ofSite site) known = leaves (use site.mention) known := by
  cases site with
  | text mention => exact (leaves_effect _ known).trans (leaves_reference mention known)
  | element mention => exact leaves_effect _ known

/-- Sites after one that fails are not resolved. -/
theorem leaves_ofSites_cons (first : Site) (rest : List Site) (known : Vocabulary) :
    leaves (ofSites (first :: rest)) known =
      match ofSite first known with
      | .ok _ after => leaves (ofSites rest) after
      | .error _ after => after := by
  simp only [leaves, ofSites_cons, Bind.bind, EStateM.bind]
  cases ofSite first known <;> rfl

theorem leaves_use (mention : Mention) (known : Vocabulary) :
    (leaves (use mention) known).scope = (known.scope.use mention).2 := by
  rw [leaves, use_eq]
  rcases known.scope.use mention with ⟨fault | used, after⟩ <;> rfl

theorem Walks.leaves_eq {sites : List Site} {action : Resolve α}
    (h : Walks sites action) (known : Vocabulary) :
    leaves action known = leaves (ofSites sites) known := by
  rw [← leaves_effect, h]

end Resolve

/-! ## Uses of a run -/

namespace Draft

def callUses (draft : Draft) (call : Call) : List Moment := moments call.sites draft.known

def updateUses : List (Update Identifier) → Draft → List Moment
  | [], _ => []
  | change :: rest, draft =>
      draft.callUses (.update change) ++ updateUses rest (draft.call (.update change))

def headingUses (draft : Draft) (item list : Identifier) : List Moment :=
  moments [list.site, item.site] draft.known

mutual

def stepUses : Step → Draft → List Moment
  | .token, _ | .entity _, _ => []
  | .call call, draft => draft.callUses call
  | .subquery body, draft =>
      match draft.depthFault? with
      | some _ => []
      | none => uses body (draft.inner draft.known.scope)
  | .forEach item list updates, draft =>
      match draft.depthFault? with
      | some _ => []
      | none =>
          draft.headingUses item list ++
            match draft.resolving (heading item list) with
            | (.error _, _) => []
            | (.ok _, draft) => updateUses updates (draft.inner draft.known.scope)
  | .union _ branches, draft =>
      match draft.depthFault? with
      | some _ => []
      | none => branchUses branches draft

/-- The uses in all steps and in the blocks they begin. -/
def uses : List Step → Draft → List Moment
  | [], _ => []
  | first :: rest, draft => stepUses first draft ++ uses rest (step first draft)

def branchUses : List (List Step) → Draft → List Moment
  | [], _ => []
  | branch :: rest, draft =>
      uses branch (draft.inner {}) ++
        branchUses rest (draft.absorb (run branch (draft.inner {})))

end

theorem uses_ofUpdates (updates : List (Update Identifier)) (draft : Draft) :
    uses (Step.ofUpdates updates) draft = updateUses updates draft := by
  induction updates generalizing draft with
  | nil => rfl
  | cons change rest ih => exact congrArg (draft.callUses (.update change) ++ ·) (ih _)

/-! ## What all uses keep -/

/-- A property of scopes that the empty scope has, and that a use keeps if it is allowed. -/
structure Upheld (Inv : Scope → Prop) (Allowed : Moment → Prop) : Prop where
  empty : Inv {}
  use : ∀ moment : Moment, Inv moment.known.scope → Allowed moment →
    Inv (moment.known.scope.use moment.mention).2

section

variable (Inv : Scope → Prop) (Allowed : Moment → Prop)

/-- The property holds at each of the uses before which all are allowed. -/
def HoldsAlong : List Moment → Prop
  | [] => True
  | moment :: rest => Inv moment.known.scope ∧ (Allowed moment → HoldsAlong rest)

/-- What holds before the uses holds along them, and after them if all are allowed. -/
def Carried (before : Scope) (used : List Moment) (after : Scope) : Prop :=
  Inv before → HoldsAlong Inv Allowed used ∧ ((∀ moment ∈ used, Allowed moment) → Inv after)

end

section

variable {Inv : Scope → Prop} {Allowed : Moment → Prop} {before between after : Scope}
  {used usedNext : List Moment}

theorem HoldsAlong.append (hused : HoldsAlong Inv Allowed used)
    (hnext : (∀ moment ∈ used, Allowed moment) → HoldsAlong Inv Allowed usedNext) :
    HoldsAlong Inv Allowed (used ++ usedNext) := by
  induction used with
  | nil => exact hnext (List.forall_mem_nil _)
  | cons first rest ih =>
      exact ⟨hused.1, fun hfirst => ih (hused.2 hfirst) fun hrest =>
        hnext (List.forall_mem_cons.mpr ⟨hfirst, hrest⟩)⟩

theorem HoldsAlong.at {earlier later : List Moment} {moment : Moment}
    (h : HoldsAlong Inv Allowed (earlier ++ moment :: later))
    (hearlier : ∀ moment ∈ earlier, Allowed moment) : Inv moment.known.scope := by
  induction earlier with
  | nil => exact h.1
  | cons first rest ih =>
      obtain ⟨hfirst, hrest⟩ := List.forall_mem_cons.mp hearlier
      exact ih (h.2 hfirst) hrest

namespace Carried

theorem none : Carried Inv Allowed before [] before :=
  fun hbefore => ⟨trivial, fun _ => hbefore⟩

theorem append (hfirst : Carried Inv Allowed before used between)
    (hnext : Carried Inv Allowed between usedNext after) :
    Carried Inv Allowed before (used ++ usedNext) after := by
  intro hbefore
  obtain ⟨hused, hbetween⟩ := hfirst hbefore
  refine ⟨hused.append fun hallowed => (hnext (hbetween hallowed)).1, fun hallowed => ?_⟩
  obtain ⟨hallowed, hallowedNext⟩ := List.forall_mem_append.mp hallowed
  exact (hnext (hbetween hallowed)).2 hallowedNext

/-- Uses in a scope of their own. -/
theorem aside (hempty : Inv {}) (hinside : Carried Inv Allowed {} used between) :
    Carried Inv Allowed before used before :=
  fun hbefore => ⟨(hinside hempty).1, fun _ => hbefore⟩

end Carried

end

theorem resolving_leaves (draft : Draft) {α : Type} {sites : List Site} {action : Resolve α}
    (hwalks : Resolve.Walks sites action) :
    (draft.resolving action).2.known = Resolve.leaves (Resolve.ofSites sites) draft.known := by
  rw [← hwalks.leaves_eq, resolving, Resolve.leaves]
  cases action draft.known <;> rfl

section

variable {Inv : Scope → Prop} {Allowed : Moment → Prop} (h : Upheld Inv Allowed) (draft : Draft)
include h

theorem Upheld.sites (sites : List Site) (known : Vocabulary) :
    Carried Inv Allowed known.scope (moments sites known)
      (Resolve.leaves (Resolve.ofSites sites) known).scope := by
  induction sites generalizing known with
  | nil => exact .none
  | cons first rest ih =>
      have hfirst : Carried Inv Allowed known.scope [⟨first.mention, known⟩]
          (Resolve.leaves (Resolve.ofSite first) known).scope := by
        intro hknown
        rw [Resolve.leaves_ofSite, Resolve.leaves_use]
        exact ⟨⟨hknown, fun _ => trivial⟩, fun hallowed =>
          h.use ⟨first.mention, known⟩ hknown (List.forall_mem_singleton.mp hallowed)⟩
      refine hfirst.append ?_
      rw [Resolve.leaves_ofSites_cons, Resolve.leaves]
      cases Resolve.ofSite first known with
      | ok _ after => exact ih after
      | error fault after => exact .none

theorem Upheld.walk {α : Type} {sites : List Site} {action : Resolve α}
    (hwalks : Resolve.Walks sites action) :
    Carried Inv Allowed draft.known.scope (moments sites draft.known)
      (draft.resolving action).2.known.scope := by
  rw [resolving_leaves draft hwalks]
  exact h.sites sites draft.known

end

theorem push_known (draft : Draft) (clause : Clause) :
    (draft.push clause).known = draft.known := by
  unfold push
  split <;> rfl

theorem call_known (draft : Draft) (call : Call) :
    (draft.call call).known = (draft.resolving call.clause).2.known := by
  unfold Draft.call
  rcases draft.resolving call.clause with ⟨fault | clause, after⟩
  · rfl
  · exact push_known after clause

theorem issue_known (draft : Draft) (typeName : String) :
    (draft.issue typeName).known = draft.known := by
  simp only [issue, entity]
  cases draft.catalog.describe typeName <;> rfl

theorem runBranches_scope (branches : List (List Step)) (draft : Draft) :
    (runBranches branches draft).1.known.scope = draft.known.scope := by
  induction branches generalizing draft with
  | nil => rfl
  | cons branch rest ih => exact ih (draft.absorb (run branch (draft.inner {})))

/-- The step carries the property along its uses. -/
def Carries (Inv : Scope → Prop) (Allowed : Moment → Prop) (s : Step) : Prop :=
  ∀ draft : Draft,
    Carried Inv Allowed draft.known.scope (stepUses s draft) (step s draft).known.scope

section

variable {Inv : Scope → Prop} {Allowed : Moment → Prop} (draft : Draft)

theorem carried_run {steps : List Step} (hsteps : ∀ s ∈ steps, Carries Inv Allowed s) :
    Carried Inv Allowed draft.known.scope (uses steps draft) (run steps draft).known.scope := by
  induction steps generalizing draft with
  | nil => exact .none
  | cons first rest ih =>
      obtain ⟨hfirst, hrest⟩ := List.forall_mem_cons.mp hsteps
      exact (hfirst draft).append (ih _ hrest)

variable (h : Upheld Inv Allowed)
include h

theorem carried_branches {branches : List (List Step)}
    (hbranches : ∀ branch ∈ branches, ∀ s ∈ branch, Carries Inv Allowed s) :
    Carried Inv Allowed draft.known.scope (branchUses branches draft) draft.known.scope := by
  induction branches generalizing draft with
  | nil => exact .none
  | cons branch rest ih =>
      obtain ⟨hbranch, hrest⟩ := List.forall_mem_cons.mp hbranches
      have hinside := carried_run (draft.inner {}) hbranch
      exact (hinside.aside h.empty).append (ih (draft.absorb (run branch (draft.inner {}))) hrest)

theorem Upheld.call (call : Call) : Carries Inv Allowed (.call call) := by
  intro draft
  have hwalk := h.walk draft (.clause call)
  rwa [← call_known] at hwalk

theorem Upheld.updates (updates : List (Update Identifier)) :
    Carried Inv Allowed draft.known.scope (updateUses updates draft)
      (run (Step.ofUpdates updates) draft).known.scope := by
  rw [← uses_ofUpdates]
  exact carried_run draft (Step.forall_mem_ofUpdates h.call updates)

theorem Upheld.carries (s : Step) : Carries Inv Allowed s := by
  induction s with
  | token => exact fun draft => .none
  | entity typeName =>
      intro draft
      rw [step, issue_known]
      exact .none
  | call call => exact h.call call
  | subquery body ihbody =>
      intro draft
      rw [step_subquery, stepUses]
      cases draft.depthFault? with
      | some fault => exact .none
      | none =>
          simp only [push_known]
          exact carried_run (draft.inner draft.known.scope) ihbody
  | forEach item list updates =>
      intro draft
      rw [step_forEach, stepUses]
      cases draft.depthFault? with
      | some fault => exact .none
      | none =>
          have hheading := h.walk draft (.heading item list)
          dsimp only
          refine hheading.append ?_
          rcases draft.resolving (heading item list) with ⟨fault | ⟨item, list⟩, after⟩
          · exact .none
          · simp only [push_known]
            exact h.updates (after.inner after.known.scope) updates
  | union mode branches ihbranches =>
      intro draft
      rw [step_union, stepUses]
      cases draft.depthFault? with
      | some fault => exact .none
      | none =>
          simp only [push_known, runBranches_scope]
          exact carried_branches draft h ihbranches

/-- What every use keeps holds at a use of a run if all uses before it are allowed. -/
theorem Upheld.at_use {steps : List Step} (hdraft : Inv draft.known.scope)
    {earlier later : List Moment} {moment : Moment}
    (huses : uses steps draft = earlier ++ moment :: later)
    (hearlier : ∀ moment ∈ earlier, Allowed moment) : Inv moment.known.scope := by
  have hcarried : Carried Inv Allowed draft.known.scope (uses steps draft)
      (run steps draft).known.scope := carried_run draft fun s _ => h.carries s
  have halong := (hcarried hdraft).1
  rw [huses] at halong
  exact halong.at hearlier

end

end Draft

end GraphQuery
