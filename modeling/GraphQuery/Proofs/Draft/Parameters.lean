import GraphQuery.Proofs.Draft.Events
import GraphQuery.Proofs.Draft.Uses
import GraphQuery.Proofs.OrderedMap

/-! # Parameters

A block notes parameters of its own, and they are merged when it is done. Altogether a run notes
what its uses mention, as if there had been one map all along. -/

namespace GraphQuery

def Identifier.parameter? : Identifier → Option (String × Value)
  | .parameter key value => some (key, value)
  | _ => none

/-- The parameters among the used mentions, repetitions included. -/
def noted (used : List Moment) : List (String × Value) :=
  used.filterMap fun moment => moment.mention.identifier.parameter?

@[simp] theorem noted_nil : noted [] = [] := rfl

@[simp] theorem noted_append (used others : List Moment) :
    noted (used ++ others) = noted used ++ noted others :=
  List.filterMap_append

theorem noted_cons (moment : Moment) (rest : List Moment) :
    noted (moment :: rest) = noted [moment] ++ noted rest :=
  noted_append [moment] rest

/-! ## Actions -/

namespace Resolve

theorem leaves_use_parameters (mention : Mention) (known : Vocabulary) :
    (leaves (use mention) known).parameters =
      known.parameters.insertAll (noted [⟨mention, known⟩]) := by
  have hnoting : (known.noting mention.identifier).parameters =
      known.parameters.insertAll (noted [⟨mention, known⟩]) := by
    cases h : mention.identifier <;> simp [noted, Identifier.parameter?, Vocabulary.noting, h]
  rw [← hnoting, leaves, use_eq]
  rcases known.scope.use mention with ⟨fault | used, after⟩ <;> rfl

theorem leaves_ofSites_parameters (sites : List Site) (known : Vocabulary) :
    (leaves (ofSites sites) known).parameters =
      known.parameters.insertAll (noted (moments sites known)) := by
  induction sites generalizing known with
  | nil => rfl
  | cons first rest ih =>
      have hfirst : (leaves (ofSite first) known).parameters =
          known.parameters.insertAll (noted [⟨first.mention, known⟩]) := by
        rw [leaves_ofSite, leaves_use_parameters]
      rw [moments, noted_cons, OrderedMap.insertAll_append,
        ← hfirst]
      rw [leaves_ofSites_cons, leaves]
      cases ofSite first known with
      | ok _ after => exact ih after
      | error fault after => rfl

/-- What resolves to the end has used all its sites. -/
theorem mentions_of_ok {sites : List Site} {known after : Vocabulary}
    (h : ofSites sites known = .ok () after) :
    (moments sites known).map Moment.mention = sites.map Site.mention := by
  induction sites generalizing known with
  | nil => rfl
  | cons first rest ih =>
      obtain ⟨_, middle, hfirst, hrest⟩ := bind_ok h
      simp only [moments, hfirst, List.map_cons, ih hrest]

theorem Walks.mentions_of_ok {α : Type} {sites : List Site} {action : Resolve α}
    (hwalks : Walks sites action) {known after : Vocabulary} {result : α}
    (h : action known = .ok result after) :
    (moments sites known).map Moment.mention = sites.map Site.mention := by
  refine @Resolve.mentions_of_ok sites known after ?_
  rw [← hwalks, effect_ok h]

end Resolve

namespace Draft

variable (draft : Draft)

theorem resolving_parameters {α : Type} {sites : List Site} {action : Resolve α}
    (hwalks : Resolve.Walks sites action) :
    (draft.resolving action).2.known.parameters =
      draft.known.parameters.insertAll (noted (moments sites draft.known)) := by
  rw [← Resolve.leaves_ofSites_parameters, ← hwalks.leaves_eq, resolving, Resolve.leaves]
  cases action draft.known <;> rfl

theorem call_parameters (call : Call) :
    (draft.call call).known.parameters =
      draft.known.parameters.insertAll (noted (draft.callUses call)) := by
  rw [call_known]
  exact resolving_parameters draft (.clause call)

/-- A block that has noted its uses from nothing is merged as if they had come in turn. -/
theorem absorb_parameters {inside : Draft} {used : List Moment}
    (hinside : inside.known.parameters = .ofList (noted used)) :
    (draft.absorb inside).known.parameters = draft.known.parameters.insertAll (noted used) := by
  rw [absorb, hinside]
  exact OrderedMap.insertAll_ofList _ _

/-! ## Steps and runs -/

/-- The step notes the parameters that its uses mention. -/
def Notes (s : Step) : Prop :=
  ∀ draft : Draft, (step s draft).known.parameters =
    draft.known.parameters.insertAll (noted (stepUses s draft))

theorem run_parameters_of_notes {steps : List Step} (hsteps : ∀ s ∈ steps, Notes s) :
    (run steps draft).known.parameters =
      draft.known.parameters.insertAll (noted (uses steps draft)) := by
  induction steps generalizing draft with
  | nil => rfl
  | cons first rest ih =>
      obtain ⟨hfirst, hrest⟩ := List.forall_mem_cons.mp hsteps
      rw [run_cons, ih _ hrest, hfirst draft, uses, noted_append, OrderedMap.insertAll_append]

theorem runBranches_parameters_of_notes {branches : List (List Step)}
    (hbranches : ∀ branch ∈ branches, ∀ s ∈ branch, Notes s) :
    (runBranches branches draft).1.known.parameters =
      draft.known.parameters.insertAll (noted (branchUses branches draft)) := by
  induction branches generalizing draft with
  | nil => rfl
  | cons branch rest ih =>
      obtain ⟨hbranch, hrest⟩ := List.forall_mem_cons.mp hbranches
      have hinside : (draft.absorb (run branch (draft.inner {}))).known.parameters =
          draft.known.parameters.insertAll (noted (uses branch (draft.inner {}))) :=
        absorb_parameters draft (run_parameters_of_notes _ hbranch)
      simp only [runBranches, branchUses, ih _ hrest, hinside, noted_append,
        OrderedMap.insertAll_append]

theorem notes_call (call : Call) : Notes (.call call) :=
  fun draft => call_parameters draft call

theorem run_updates_parameters (updates : List (Update Identifier)) :
    (run (Step.ofUpdates updates) draft).known.parameters =
      draft.known.parameters.insertAll (noted (updateUses updates draft)) := by
  rw [← uses_ofUpdates]
  exact run_parameters_of_notes draft (Step.forall_mem_ofUpdates notes_call updates)

theorem notes (s : Step) : Notes s := by
  induction s with
  | token => exact fun draft => rfl
  | entity typeName =>
      intro draft
      simp only [step, issue, entity]
      cases draft.catalog.describe typeName <;> rfl
  | call call => exact notes_call call
  | subquery body ihbody =>
      intro draft
      rw [step_subquery, stepUses]
      cases draft.depthFault? with
      | some fault => rfl
      | none =>
          simp only [push_known]
          exact absorb_parameters draft (run_parameters_of_notes _ ihbody)
  | forEach item list updates =>
      intro draft
      rw [step_forEach, stepUses]
      cases draft.depthFault? with
      | some fault => rfl
      | none =>
          have hheading := resolving_parameters draft (.heading item list)
          dsimp only
          rw [noted_append, OrderedMap.insertAll_append, headingUses, ← hheading]
          rcases draft.resolving (heading item list) with ⟨fault | ⟨item, list⟩, after⟩
          · rfl
          · simp only [push_known]
            exact absorb_parameters after (run_updates_parameters _ updates)
  | union mode branches ihbranches =>
      intro draft
      rw [step_union, stepUses]
      cases draft.depthFault? with
      | some fault => rfl
      | none =>
          simp only [push_known]
          exact runBranches_parameters_of_notes draft ihbranches

/-- A run notes the parameters of all its uses, whatever blocks they stand in. -/
theorem run_parameters (steps : List Step) :
    (run steps draft).known.parameters =
      draft.known.parameters.insertAll (noted (uses steps draft)) :=
  run_parameters_of_notes draft fun s _ => notes s

end Draft

/-! ## Mentions of a program -/

mutual

/-- What a step mentions itself and in the blocks it begins, in the order of resolution. -/
def Step.sites : Step → List Site
  | .token | .entity _ => []
  | .call c => c.sites
  | .subquery body => Step.sitesOfAll body
  | .forEach item list updates => [list.site, item.site] ++ updates.flatMap Update.sites
  | .union _ branches => Step.sitesOfBranches branches

def Step.sitesOfAll : List Step → List Site
  | [] => []
  | first :: rest => first.sites ++ Step.sitesOfAll rest

def Step.sitesOfBranches : List (List Step) → List Site
  | [] => []
  | branch :: rest => Step.sitesOfAll branch ++ Step.sitesOfBranches rest

end

theorem Step.sitesOfAll_ofUpdates (updates : List (Update Identifier)) :
    Step.sitesOfAll (Step.ofUpdates updates) = updates.flatMap Update.sites := by
  induction updates with
  | nil => rfl
  | cons change rest ih =>
      rw [List.flatMap_cons, ← ih]
      rfl

namespace Draft

variable (draft : Draft)

/-- Where nothing fails, the step uses all it mentions. -/
def Exhausts (s : Step) : Prop :=
  ∀ draft : Draft, faults (stepEvents s draft) = [] →
    (stepUses s draft).map Moment.mention = s.sites.map Site.mention

theorem exhausts_call (c : Call) : Exhausts (.call c) := by
  intro draft hcalm
  obtain ⟨clause, known, hclause, -⟩ := call_calm hcalm
  exact (Resolve.Walks.clause c).mentions_of_ok hclause

theorem uses_of_exhausts {steps : List Step} (hsteps : ∀ s ∈ steps, Exhausts s)
    (hcalm : failures steps draft = []) :
    (uses steps draft).map Moment.mention = (Step.sitesOfAll steps).map Site.mention := by
  induction steps generalizing draft with
  | nil => rfl
  | cons first rest ih =>
      obtain ⟨hfirst, hrest⟩ := List.forall_mem_cons.mp hsteps
      obtain ⟨hhead, htail⟩ := faults_append_eq_nil_iff.mp hcalm
      rw [uses, Step.sitesOfAll, List.map_append, List.map_append, hfirst draft hhead,
        ih _ hrest htail]

theorem updateUses_of_calm {updates : List (Update Identifier)}
    (hcalm : faults (updateEvents updates draft) = []) :
    (updateUses updates draft).map Moment.mention =
      (updates.flatMap Update.sites).map Site.mention := by
  rw [← uses_ofUpdates, ← Step.sitesOfAll_ofUpdates]
  rw [← events_ofUpdates] at hcalm
  exact uses_of_exhausts draft (Step.forall_mem_ofUpdates exhausts_call updates) hcalm

theorem branchUses_of_exhausts {branches : List (List Step)}
    (hbranches : ∀ branch ∈ branches, ∀ s ∈ branch, Exhausts s)
    (hcalm : faults (branchEvents branches draft) = []) :
    (branchUses branches draft).map Moment.mention =
      (Step.sitesOfBranches branches).map Site.mention := by
  induction branches generalizing draft with
  | nil => rfl
  | cons branch rest ih =>
      obtain ⟨hbranch, hrest⟩ := List.forall_mem_cons.mp hbranches
      obtain ⟨hhead, htail⟩ := faults_append_eq_nil_iff.mp hcalm
      rw [branchUses, Step.sitesOfBranches, List.map_append, List.map_append,
        uses_of_exhausts _ hbranch hhead, ih _ hrest htail]

theorem exhausts (s : Step) : Exhausts s := by
  induction s with
  | token | entity typeName => exact fun draft _ => rfl
  | call call => exact exhausts_call call
  | subquery body ihbody =>
      intro draft hcalm
      obtain ⟨hdepth, hbody, -⟩ := subquery_calm hcalm
      rw [stepUses, hdepth]
      exact uses_of_exhausts _ ihbody hbody
  | forEach item list updates =>
      intro draft hcalm
      obtain ⟨hdepth, texts, known, hresolved, hheading, hupdates, -⟩ := forEach_calm hcalm
      simp only [stepUses, hdepth, hheading]
      rw [headingUses, Step.sites, List.map_append, List.map_append,
        (Resolve.Walks.heading item list).mentions_of_ok hresolved, updateUses_of_calm _ hupdates]
  | union mode branches ihbranches =>
      intro draft hcalm
      obtain ⟨hdepth, hbranches, -⟩ := union_calm hcalm
      rw [stepUses, hdepth]
      exact branchUses_of_exhausts draft ihbranches hbranches

/-! ## Finished queries -/

/-- A program that compiles has used all that it mentions, and the parameters of its query are
those it has used: each name where it is used first, in whatever block that is, with the value
it has where it is used last. -/
theorem parameters_gather_uses {catalog : Catalog} {settings : Settings} {steps : List Step}
    {query : Query} (h : (run steps { catalog, settings }).compile = .ok query) :
    (uses steps { catalog, settings }).map Moment.mention =
        (Step.sitesOfAll steps).map Site.mention ∧
      query.parameters.Gathers (noted (uses steps { catalog, settings })) := by
  obtain ⟨hfault, -, rfl⟩ := compile_eq_ok_iff.mp h
  have hcalm : failures steps { catalog, settings } = [] := by
    rw [run_fault] at hfault
    simpa using hfault
  refine ⟨uses_of_exhausts _ (fun s _ => exhausts s) hcalm, ?_⟩
  rw [query, Query.ofPlaced, run_parameters]
  exact OrderedMap.gathers_ofList _

/-- Parameters mentioned again, with other values, in blocks of all kinds. -/
def sharedParameterSteps : List Step :=
  [.call (.unwind (.parameter "rows" (.list [])) { identifier := .name "row" }),
    .subquery [.call (.merge { start := {
      identifier := .name "n"
      properties := .ofList [("id", .parameter "id" .null), ("row", .parameter "rows" .null)] } })],
    .union .all
      [[.call (.unwind (.parameter "last" .null) { identifier := .name "x" })],
        [.call (.unwind (.parameter "id" (.boolean true)) { identifier := .name "x" })]],
    .forEach (.name "x") (.parameter "rows" (.boolean false))
      [.set [.property (.name "n.id") (.parameter "last" (.text "z"))]]]

theorem parameters_gather_uses_sharedParameterSteps :
    (noted (uses sharedParameterSteps {})).map Prod.fst =
        ["rows", "id", "rows", "last", "id", "rows", "last"] ∧
      ∃ query, (run sharedParameterSteps {}).compile = .ok query ∧
        (uses sharedParameterSteps {}).map Moment.mention =
            (Step.sitesOfAll sharedParameterSteps).map Site.mention ∧
          query.parameters.Gathers (noted (uses sharedParameterSteps {})) :=
  ⟨by decide, _, rfl, parameters_gather_uses rfl⟩

end Draft

end GraphQuery
