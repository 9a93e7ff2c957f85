import GraphQuery.Proofs.Draft.Nesting
import GraphQuery.Proofs.Draft.Outline

/-! # The limit of nesting

A run is watched: every draft it leads through is written down, in whatever block that stands. None
of them stands deeper than the settings allow, or has clauses that nest any deeper. A block that
would lie deeper leaves a fault and nothing else, and there is one just in a program whose blocks
do not fit. -/

namespace GraphQuery

mutual

/-- How many levels of blocks a clause is. -/
def Clause.height : Clause → Nat
  | .subquery body => Clause.heightAll body + 1
  | .forEach _ _ updates => Clause.heightAll updates + 1
  | .union _ branches => Clause.heightBranches branches + 1
  | _ => 0

def Clause.heightAll : List Clause → Nat
  | [] => 0
  | clause :: rest => max clause.height (Clause.heightAll rest)

def Clause.heightBranches : List (List Clause) → Nat
  | [] => 0
  | branch :: rest => max (Clause.heightAll branch) (Clause.heightBranches rest)

end

theorem Clause.heightAll_append (clauses later : List Clause) :
    Clause.heightAll (clauses ++ later) =
      max (Clause.heightAll clauses) (Clause.heightAll later) := by
  induction clauses with
  | nil => exact (Nat.zero_max _).symm
  | cons clause rest ih =>
      rw [List.cons_append, Clause.heightAll, Clause.heightAll, ih, Nat.max_assoc]

theorem Resolve.yields_flat (call : Call) :
    Yields (fun clause => clause.height = 0) call.clause := by
  cases call with
  | unwind list item => exact .next fun _ => .map fun _ => rfl
  | use _ | call _ | showCommand _ | rawText _ => exact .pure rfl
  | _ => exact .map fun _ => rfl

/-- The step begins a block. -/
def Step.BeginsBlock : Step → Prop
  | .subquery _ | .forEach _ _ _ | .union _ _ => True
  | _ => False

/-- The fault of a block that lies one level below the limit. -/
def Settings.tooDeep (settings : Settings) : Fault :=
  .nestingTooDeep (settings.maxDepth + 1) settings.maxDepth

namespace Draft

/-! ## Watched runs -/

/-- Writes a draft down. -/
def note (draft : Draft) : StateM (List Draft) Unit := modify (· ++ [draft])

def watchUpdates : List (Update Identifier) → Updater → StateM (List Draft) Updater
  | [], updater => do
      note updater.draft
      return updater
  | change :: rest, updater => do
      note updater.draft
      watchUpdates rest (updater.update change)

mutual

def watchStep : Step → Draft → StateM (List Draft) Draft
  | .token, draft => return draft.token.2
  | .entity typeName, draft => return draft.issue typeName
  | .call call, draft => return draft.call call
  | .subquery body, draft => draft.subqueryM fun inside => watch body inside
  | .forEach item list updates, draft => draft.forEachM item list (watchUpdates updates)
  | .union mode branches, draft => draft.unionM mode (watches branches)

/-- Takes the steps in turn, and writes down the draft before each and after the last, in this
sequence and in each block that is built. -/
def watch : List Step → Draft → StateM (List Draft) Draft
  | [], draft => do
      note draft
      return draft
  | first :: rest, draft => do
      note draft
      let next ← watchStep first draft
      watch rest next

def watches : List (List Step) → List (Draft → StateM (List Draft) Draft)
  | [] => []
  | branch :: rest => (fun inside => watch branch inside) :: watches rest

end

/-- All drafts that a run leads through. -/
def visited (steps : List Step) (draft : Draft) : List Draft := ((watch steps draft).run []).2

/-! ## Bounded drafts -/

/-- The draft stands, and its clauses nest blocks, no deeper than the settings allow. -/
structure Bounded (settings : Settings) (draft : Draft) : Prop where
  settings_eq : draft.settings = settings
  fits : draft.Fits (Clause.heightAll draft.clauses)

section

variable {settings : Settings} {draft inside : Draft} {clause : Clause}

theorem fits_of_depthFault? (h : draft.depthFault? = none) : draft.Fits 1 := by
  unfold depthFault? at h
  split at h
  · next hfits => exact hfits
  · cases h

theorem Continues.bounded {after : Draft} (hplace : draft.Continues after)
    (hclauses : after.clauses = draft.clauses) (h : draft.Bounded settings) :
    after.Bounded settings where
  settings_eq := hplace.settings.trans h.settings_eq
  fits := hplace.fits.mpr (hclauses ▸ h.fits)

namespace Bounded

theorem push (h : draft.Bounded settings) (hclause : draft.Fits clause.height) :
    (draft.push clause).Bounded settings := by
  unfold Draft.push
  split
  · exact (Continues.fail (.refl draft) _).bounded rfl h
  · refine ⟨h.settings_eq, ?_⟩
    have hclauses : draft.depth + Clause.heightAll draft.clauses ≤ draft.settings.maxDepth :=
      h.fits
    have hadded : draft.depth + clause.height ≤ draft.settings.maxDepth := hclause
    simp only [Fits, Clause.heightAll_append, Clause.heightAll]
    omega

theorem call (h : draft.Bounded settings) (call : Call) : (draft.call call).Bounded settings := by
  unfold Draft.call
  rcases hresult : draft.resolving call.clause with ⟨fault | clause, middle⟩
  · obtain ⟨known, rfl⟩ := resolving_known hresult
    exact (Continues.fail (Continues.resolving hresult) fault).bounded rfl h
  · obtain ⟨known, hclause, rfl⟩ := resolving_ok hresult
    refine push ((Continues.resolving hresult).bounded rfl h) ?_
    rw [Resolve.yields_flat call _ _ _ hclause]
    exact Fits.mono h.fits (Nat.zero_le _)

theorem inner (h : draft.Bounded settings) (hdepth : draft.depthFault? = none) (scope : Scope) :
    (draft.inner scope).Bounded settings :=
  ⟨h.settings_eq, Fits.inner (fits_of_depthFault? hdepth) scope⟩

/-- The clauses of a finished block fit where the block was begun. -/
theorem fits_block (h : inside.Bounded settings) {scope : Scope}
    (hplace : (draft.inner scope).Continues inside) :
    draft.Fits (Clause.heightAll inside.clauses + 1) := by
  have hfits : draft.depth + 1 + Clause.heightAll inside.clauses ≤ draft.settings.maxDepth :=
    hplace.fits.mp h.fits
  rw [Fits]
  omega

end Bounded

end

/-! ## Bounded runs -/

/-- The action results in this, and writes down bounded drafts only. -/
def Leads (settings : Settings) {α : Type} (action : StateM (List Draft) α) (result : α) : Prop :=
  ∀ log, (∀ draft ∈ log, draft.Bounded settings) →
    (action.run log).1 = result ∧ ∀ draft ∈ (action.run log).2, draft.Bounded settings

section

variable {settings : Settings} {α β : Type}

theorem Leads.pure (result : α) : Leads settings (Pure.pure result) result :=
  fun _ hlog => ⟨rfl, hlog⟩

theorem Leads.bind {first : StateM (List Draft) α} {rest : α → StateM (List Draft) β} {middle : α}
    {result : β} (hfirst : Leads settings first middle)
    (hrest : Leads settings (rest middle) result) : Leads settings (first >>= rest) result := by
  intro log hlog
  obtain ⟨hmiddle, hnoted⟩ := hfirst log hlog
  have hrun : (first >>= rest).run log = (rest (first.run log).1).run (first.run log).2 := rfl
  rw [hrun, hmiddle]
  exact hrest _ hnoted

theorem Leads.note {draft : Draft} (h : draft.Bounded settings) :
    Leads settings (Draft.note draft) () :=
  fun _ hlog => ⟨rfl, List.forall_mem_append.mpr ⟨hlog, List.forall_mem_singleton.mpr h⟩⟩

end

/-- The step, taken on a bounded draft, leads to one that is bounded. -/
def StaysBounded (s : Step) : Prop :=
  ∀ {settings : Settings} {draft : Draft}, draft.Bounded settings →
    (step s draft).Bounded settings ∧ Leads settings (watchStep s draft) (step s draft)

section

variable {settings : Settings} {draft : Draft}

theorem run_bounded_of_stays {steps : List Step} (hsteps : ∀ s ∈ steps, StaysBounded s)
    (h : draft.Bounded settings) :
    (run steps draft).Bounded settings ∧ Leads settings (watch steps draft) (run steps draft) := by
  induction steps generalizing draft with
  | nil => exact ⟨h, .bind (.note h) (.pure draft)⟩
  | cons first rest ih =>
      obtain ⟨hfirst, hrest⟩ := List.forall_mem_cons.mp hsteps
      obtain ⟨hstep, hwatched⟩ := hfirst h
      obtain ⟨hrun, hlater⟩ := ih hrest hstep
      exact ⟨hrun, .bind (.note h) (.bind hwatched hlater)⟩

theorem updates_bounded (updates : List (Update Identifier)) {updater : Updater}
    (h : updater.draft.Bounded settings) :
    (run (Step.ofUpdates updates) updater.draft).Bounded settings ∧
      Leads settings (watchUpdates updates updater)
        ⟨run (Step.ofUpdates updates) updater.draft⟩ := by
  induction updates generalizing updater with
  | nil => exact ⟨h, .bind (.note h) (.pure updater)⟩
  | cons change rest ih =>
      have hupdated : (updater.update change).draft.Bounded settings := h.call (.update change)
      obtain ⟨hrun, hlater⟩ := ih hupdated
      exact ⟨hrun, .bind (.note h) hlater⟩

theorem branches_bounded {branches : List (List Step)}
    (hbranches : ∀ branch ∈ branches, ∀ s ∈ branch, StaysBounded s) (h : draft.Bounded settings)
    (hdepth : draft.depthFault? = none) :
    draft.Fits (Clause.heightBranches (runBranches branches draft).2 + 1) ∧
      Leads settings (draft.branchesM (watches branches)) (runBranches branches draft) := by
  induction branches generalizing draft with
  | nil => exact ⟨fits_of_depthFault? hdepth, .pure _⟩
  | cons branch rest ih =>
      obtain ⟨hbranch, hrest⟩ := List.forall_mem_cons.mp hbranches
      obtain ⟨hinside, hwatched⟩ := run_bounded_of_stays hbranch (h.inner hdepth {})
      have hplace := Continues.absorb draft (run branch (draft.inner {}))
      obtain ⟨hlater, hwatchedRest⟩ := ih hrest (hplace.bounded rfl h) hdepth
      refine ⟨?_, .bind hwatched (.bind hwatchedRest (.pure _))⟩
      have hfirst : draft.depth + (Clause.heightAll (run branch (draft.inner {})).clauses + 1) ≤
          draft.settings.maxDepth := hinside.fits_block (Continues.run branch _)
      have hothers : draft.depth + (Clause.heightBranches
          (runBranches rest (draft.absorb (run branch (draft.inner {})))).2 + 1) ≤
            draft.settings.maxDepth := hlater
      simp only [Fits, runBranches, Clause.heightBranches]
      omega

theorem staysBounded (s : Step) : StaysBounded s := by
  induction s with
  | token => exact fun {_ draft} h => ⟨(Continues.step .token draft).bounded rfl h, .pure _⟩
  | entity typeName =>
      intro settings draft h
      refine ⟨(Continues.step (.entity typeName) draft).bounded ?_ h, .pure _⟩
      simp only [step, issue, entity]
      cases draft.catalog.describe typeName <;> rfl
  | call call => exact fun h => ⟨h.call call, .pure _⟩
  | subquery body ihbody =>
      intro settings draft h
      rw [step_subquery, watchStep, subqueryM]
      cases hdepth : draft.depthFault? with
      | some fault => exact ⟨(Continues.fail (.refl draft) fault).bounded rfl h, .pure _⟩
      | none =>
          obtain ⟨hinside, hwatched⟩ :=
            run_bounded_of_stays ihbody (h.inner hdepth draft.known.scope)
          have hplace := Continues.absorbScope draft (run body (draft.inner draft.known.scope))
          refine ⟨(hplace.bounded rfl h).push ?_, .bind hwatched (.pure _)⟩
          exact hplace.fits.mpr (hinside.fits_block (Continues.run body _))
  | forEach item list updates =>
      intro settings draft h
      rw [step_forEach, watchStep, forEachM]
      cases hdepth : draft.depthFault? with
      | some fault => exact ⟨(Continues.fail (.refl draft) fault).bounded rfl h, .pure _⟩
      | none =>
          rcases hresult : draft.resolving (heading item list) with ⟨fault | texts, middle⟩
          · obtain ⟨known, rfl⟩ := resolving_known hresult
            exact ⟨(Continues.fail (Continues.resolving hresult) fault).bounded rfl h, .pure _⟩
          · obtain ⟨known, rfl⟩ := resolving_known hresult
            have hmiddle := (Continues.resolving hresult).bounded rfl h
            have hstart : (Updater.mk ({ draft with known }.inner known.scope)).draft.Bounded
                settings := hmiddle.inner hdepth _
            obtain ⟨hinside, hwatched⟩ := updates_bounded updates hstart
            have hplace := Continues.absorbScope { draft with known }
              (run (Step.ofUpdates updates) ({ draft with known }.inner known.scope))
            refine ⟨(hplace.bounded rfl hmiddle).push ?_, .bind hwatched (.pure _)⟩
            exact hplace.fits.mpr (hinside.fits_block (Continues.run _ _))
  | union mode branches ihbranches =>
      intro settings draft h
      rw [step_union, watchStep, unionM]
      cases hdepth : draft.depthFault? with
      | some fault => exact ⟨(Continues.fail (.refl draft) fault).bounded rfl h, .pure _⟩
      | none =>
          obtain ⟨hfits, hwatched⟩ := branches_bounded ihbranches h hdepth
          have hplace := Continues.runBranches branches draft
          refine ⟨(hplace.bounded (runBranches_clauses draft branches) h).push ?_,
            .bind hwatched (.pure _)⟩
          exact hplace.fits.mpr hfits

end

/-! ## Faults of depth -/

/-- A fault of depth is among the events just when blocks lie too deep, and then it is that of the
level below the limit. -/
def TooDeepIf (settings : Settings) (tooDeep : Prop) (happened : List Event) : Prop :=
  ∀ depth limit, .nestingTooDeep depth limit ∈ faults happened ↔
    tooDeep ∧ depth = settings.maxDepth + 1 ∧ limit = settings.maxDepth

section

variable {settings : Settings} {draft : Draft} {before after : List Event} {p q : Prop}

theorem depthFault?_eq_some {fault : Fault} (hplace : draft.Fits 0)
    (h : draft.depthFault? = some fault) :
    draft.depth = draft.settings.maxDepth ∧ fault = draft.settings.tooDeep := by
  have hdepth : draft.depth + 0 ≤ draft.settings.maxDepth := hplace
  unfold depthFault? at h
  split at h
  · cases h
  · next hlimit =>
      have hbottom : draft.depth = draft.settings.maxDepth := by omega
      rw [← Option.some.inj h, hbottom]
      exact ⟨rfl, rfl⟩

theorem not_fits_max {levels more : Nat} :
    ¬ draft.Fits (max levels more) ↔ ¬ draft.Fits levels ∨ ¬ draft.Fits more := by
  simp only [Fits]
  omega

theorem inner_fits {levels : Nat} {scope : Scope} :
    (draft.inner scope).Fits levels ↔ draft.Fits (levels + 1) :=
  iff_of_eq (congrArg (· ≤ draft.settings.maxDepth) (Nat.succ_add_eq_add_succ draft.depth levels))

namespace TooDeepIf

theorem congr (h : TooDeepIf settings p before) (hpq : p ↔ q) : TooDeepIf settings q before :=
  fun depth limit => (h depth limit).trans (and_congr_left' hpq)

theorem append (hbefore : TooDeepIf settings p before) (hafter : TooDeepIf settings q after) :
    TooDeepIf settings (p ∨ q) (before ++ after) := by
  intro depth limit
  rw [faults_append, List.mem_append, hbefore, hafter, or_and_right]

theorem append_calm (hbefore : TooDeepIf settings p before)
    (hafter : TooDeepIf settings False after) : TooDeepIf settings p (before ++ after) :=
  (hbefore.append hafter).congr (iff_of_eq (or_false p))

theorem calm (h : faults before = []) : TooDeepIf settings False before :=
  fun _ _ => iff_of_false (fun hmem => List.not_mem_nil (h ▸ hmem)) (fun h => h.1)

theorem nil : TooDeepIf settings False [] := .calm rfl

theorem failed {fault : Fault} (h : fault.OfIdentifier) :
    TooDeepIf settings False [.failed fault] := by
  refine fun depth limit => iff_of_false (fun hmem => ?_) (fun h => h.1)
  cases List.mem_singleton.mp hmem
  cases h

theorem push (clause : Clause) : TooDeepIf settings False (pushEvents clause) := by
  unfold pushEvents
  split
  · exact fun depth limit => iff_of_false (by simp [faults, Event.fault?]) (fun h => h.1)
  · exact .nil

theorem call (call : Call) : TooDeepIf settings False (draft.callEvents call) := by
  unfold callEvents
  rcases hresult : draft.resolving call.clause with ⟨fault | clause, middle⟩
  · obtain ⟨known, hfault, -⟩ := resolving_error hresult
    exact .failed ((Resolve.Scoped.clause call).error_ofIdentifier hfault)
  · exact .push clause

theorem updates (updates : List (Update Identifier)) :
    TooDeepIf settings False (updateEvents updates draft) := by
  induction updates generalizing draft with
  | nil => exact .nil
  | cons change rest ih => exact (TooDeepIf.call _).append_calm ih

/-- Nothing of the kind happens where there is room. -/
theorem of_fits (h : TooDeepIf settings False before) {levels : Nat} (hfits : draft.Fits levels) :
    TooDeepIf settings (¬ draft.Fits levels) before :=
  h.congr (iff_of_false id (not_not_intro hfits))

/-- A block below the limit is the whole of what happens. -/
theorem refused {fault : Fault} (hplace : draft.Fits 0) (h : draft.depthFault? = some fault)
    (levels : Nat) :
    TooDeepIf draft.settings (¬ draft.Fits (levels + 1)) [.failed fault] := by
  obtain ⟨hbottom, rfl⟩ := depthFault?_eq_some hplace h
  have hdeep : ¬ draft.Fits (levels + 1) := by
    rw [Fits]
    omega
  intro depth limit
  rw [and_iff_right hdeep, ← Fault.nestingTooDeep.injEq]
  exact List.mem_singleton

end TooDeepIf

/-- The step leaves a fault of depth just when its blocks do not fit. -/
def Overflows (s : Step) : Prop :=
  ∀ {draft : Draft}, draft.Fits 0 →
    TooDeepIf draft.settings (¬ draft.Fits s.height) (stepEvents s draft)

theorem run_overflows_of_step {steps : List Step} (hsteps : ∀ s ∈ steps, Overflows s)
    (hplace : draft.Fits 0) :
    TooDeepIf draft.settings (¬ draft.Fits (Step.heightAll steps)) (events steps draft) := by
  induction steps generalizing draft with
  | nil => exact TooDeepIf.nil.of_fits hplace
  | cons first rest ih =>
      obtain ⟨hfirst, hrest⟩ := List.forall_mem_cons.mp hsteps
      have hstep := Continues.step first draft
      have hlater := ih hrest (hstep.fits.mpr hplace)
      rw [hstep.settings, hstep.fits] at hlater
      exact ((hfirst hplace).append hlater).congr not_fits_max.symm

theorem branches_overflow {branches : List (List Step)}
    (hbranches : ∀ branch ∈ branches, ∀ s ∈ branch, Overflows s) (hplace : draft.Fits 1) :
    TooDeepIf draft.settings (¬ draft.Fits (Step.heightBranches branches + 1))
      (branchEvents branches draft) := by
  induction branches generalizing draft with
  | nil => exact TooDeepIf.nil.of_fits hplace
  | cons branch rest ih =>
      obtain ⟨hbranch, hrest⟩ := List.forall_mem_cons.mp hbranches
      have hinside := run_overflows_of_step hbranch (hplace.inner {})
      rw [inner_fits] at hinside
      have hplaceRest := Continues.absorb draft (run branch (draft.inner {}))
      have hlater := ih hrest (hplaceRest.fits.mpr hplace)
      rw [hplaceRest.settings, hplaceRest.fits] at hlater
      refine (hinside.append hlater).congr ?_
      rw [Step.heightBranches, ← Nat.add_max_add_right, not_fits_max]

theorem overflows (s : Step) : Overflows s := by
  induction s with
  | token =>
      intro draft hplace
      have hcalm : faults (stepEvents .token draft) = [] := rfl
      exact (TooDeepIf.calm hcalm).of_fits hplace
  | entity typeName =>
      intro draft hplace
      refine TooDeepIf.of_fits ?_ hplace
      rw [stepEvents]
      split <;> exact .calm rfl
  | call call => exact fun hplace => (TooDeepIf.call call).of_fits hplace
  | subquery body ihbody =>
      intro draft hplace
      rw [stepEvents]
      cases hdepth : draft.depthFault? with
      | some fault => exact .refused hplace hdepth _
      | none =>
          have hinside := run_overflows_of_step ihbody
            ((fits_of_depthFault? hdepth).inner draft.known.scope)
          rw [inner_fits] at hinside
          exact hinside.append_calm (.push _)
  | forEach item list updates =>
      intro draft hplace
      rw [stepEvents]
      cases hdepth : draft.depthFault? with
      | some fault => exact .refused hplace hdepth _
      | none =>
          refine TooDeepIf.of_fits ?_ (fits_of_depthFault? hdepth)
          rcases hresult : draft.resolving (heading item list) with ⟨fault | texts, middle⟩
          · obtain ⟨known, hfault, -⟩ := resolving_error hresult
            exact .failed ((Resolve.Scoped.heading item list).error_ofIdentifier hfault)
          · exact (TooDeepIf.updates updates).append_calm (.push _)
  | union mode branches ihbranches =>
      intro draft hplace
      rw [stepEvents]
      cases hdepth : draft.depthFault? with
      | some fault => exact .refused hplace hdepth _
      | none =>
          have hbranches := branches_overflow ihbranches (fits_of_depthFault? hdepth)
          exact hbranches.append_calm (.push _)

end

/-! ## The limit -/

/-- Where the draft stands at the limit, a block leaves a fault and nothing else. -/
theorem step_at_limit {settings : Settings} {draft : Draft} (h : draft.Bounded settings)
    (hlimit : draft.depth = settings.maxDepth) {s : Step} (hblock : s.BeginsBlock) :
    step s draft = draft.fail settings.tooDeep := by
  have hdepth : draft.depthFault? = some settings.tooDeep := by
    rw [depthFault?, h.settings_eq, hlimit, if_neg (Nat.not_succ_le_self _)]
    rfl
  cases s with
  | subquery body => rw [step_subquery, hdepth]
  | forEach item list updates => rw [step_forEach, hdepth]
  | union mode branches => rw [step_union, hdepth]
  | _ => cases hblock

/-- No draft of a run stands, or nests its clauses, deeper than the limit. A block that would lie
below it leaves its fault and nothing else, which happens just when the blocks of the program do
not fit. -/
theorem nesting_limit_exact (catalog : Catalog) (settings : Settings) (steps : List Step) :
    let fresh : Draft := { catalog, settings }
    ((watch steps fresh).run []).1 = run steps fresh ∧
      (∀ draft ∈ visited steps fresh,
        draft.depth ≤ settings.maxDepth ∧
          Clause.heightAll draft.clauses ≤ settings.maxDepth - draft.depth ∧
          (draft.depth = settings.maxDepth → ∀ s : Step, s.BeginsBlock →
            step s draft = { draft with
              fault := draft.fault <|>
                some (.nestingTooDeep (settings.maxDepth + 1) settings.maxDepth) })) ∧
      (∀ depth limit, .nestingTooDeep depth limit ∈ failures steps fresh ↔
        settings.maxDepth < Step.heightAll steps ∧
          depth = settings.maxDepth + 1 ∧ limit = settings.maxDepth) ∧
      (run steps fresh).fault = (failures steps fresh).head? := by
  intro fresh
  have hplace : fresh.Fits 0 := Nat.zero_le settings.maxDepth
  obtain ⟨-, hwatched⟩ :=
    run_bounded_of_stays (fun s _ => staysBounded s) (⟨rfl, hplace⟩ : fresh.Bounded settings)
  obtain ⟨hsame, hbounded⟩ := hwatched [] (List.forall_mem_nil _)
  refine ⟨hsame, fun draft hdraft => ?_, fun depth limit => ?_, run_fault fresh steps⟩
  · have hdraft : draft.Bounded settings := hbounded draft hdraft
    have hfits : draft.depth + Clause.heightAll draft.clauses ≤ settings.maxDepth :=
      hdraft.settings_eq ▸ hdraft.fits
    exact ⟨by omega, by omega, fun hlimit s hblock => step_at_limit hdraft hlimit hblock⟩
  · have hdeep : ¬ fresh.Fits (Step.heightAll steps) ↔
        settings.maxDepth < Step.heightAll steps := by
      rw [Fits, Nat.not_le, Nat.zero_add]
    exact (run_overflows_of_step (fun s _ => overflows s) hplace).congr hdeep depth limit

/-- The loop stands at the limit, the union beside it as well, and the subquery in that below. -/
example :
    let delete : Update Identifier := .delete false [.name "x"]
    (run [.subquery [.forEach (.name "x") (.raw "xs") [delete], .union .distinct [[.subquery []]]]]
      { settings := { maxDepth := 2 } }).fault = some (.nestingTooDeep 3 2) := rfl

end Draft

end GraphQuery
