import GraphQuery.Proofs.Draft.History

/-! # Nesting

How deep the blocks of a program reach. As long as they keep within the limit, it makes no
difference how deep the draft itself stands. -/

namespace GraphQuery

mutual

/-- How many levels of blocks a step is. -/
def Step.height : Step → Nat
  | .token | .entity _ | .call _ => 0
  | .subquery body => Step.heightAll body + 1
  | .forEach _ _ _ => 1
  | .union _ branches => Step.heightBranches branches + 1

def Step.heightAll : List Step → Nat
  | [] => 0
  | first :: rest => max (Step.height first) (Step.heightAll rest)

def Step.heightBranches : List (List Step) → Nat
  | [] => 0
  | branch :: rest => max (Step.heightAll branch) (Step.heightBranches rest)

end

namespace Draft

/-- Blocks of so many levels may stand in the draft. -/
def Fits (draft : Draft) (levels : Nat) : Prop :=
  draft.depth + levels ≤ draft.settings.maxDepth

instance (draft : Draft) (levels : Nat) : Decidable (draft.Fits levels) :=
  inferInstanceAs (Decidable (_ ≤ _))

/-- The same draft one level further down. -/
def deeper (draft : Draft) : Draft := { draft with depth := draft.depth + 1 }

theorem Continues.fits {draft after : Draft} (h : draft.Continues after) {levels : Nat} :
    after.Fits levels ↔ draft.Fits levels := by
  rw [Fits, Fits, h.depth, h.settings]

theorem Fits.mono {draft : Draft} {levels fewer : Nat} (h : draft.Fits levels)
    (hle : fewer ≤ levels) : draft.Fits fewer :=
  Nat.le_trans (Nat.add_le_add_left hle _) h

theorem Fits.inner {draft : Draft} {levels : Nat} (h : draft.Fits (levels + 1)) (scope : Scope) :
    (draft.inner scope).Fits levels := by
  have hmore : draft.depth + (levels + 1) ≤ draft.settings.maxDepth := h
  have hinner : draft.depth + 1 + levels ≤ draft.settings.maxDepth := by omega
  exact hinner

theorem Fits.depthFault? {draft : Draft} {levels : Nat} (h : draft.Fits (levels + 1)) :
    draft.depthFault? = none :=
  if_pos (Nat.le_trans (Nat.add_le_add_left (Nat.le_add_left 1 levels) _) h)

theorem Fits.depthFault?_deeper {draft : Draft} {levels : Nat} (h : draft.Fits (levels + 1 + 1)) :
    draft.deeper.depthFault? = none :=
  (h.inner draft.known.scope).depthFault?

/-! ## Pieces of a step -/

variable (draft : Draft)

theorem push_deeper (clause : Clause) : draft.deeper.push clause = (draft.push clause).deeper := by
  unfold push
  split <;> rfl

theorem resolving_deeper {α : Type} (action : Resolve α) :
    draft.deeper.resolving action =
      ((draft.resolving action).1, (draft.resolving action).2.deeper) := by
  have hknown : draft.deeper.known = draft.known := rfl
  simp only [resolving, hknown]
  cases action draft.known <;> rfl

theorem call_deeper (call : Call) : draft.deeper.call call = (draft.call call).deeper := by
  unfold Draft.call
  rw [resolving_deeper]
  rcases draft.resolving call.clause with ⟨_ | clause, middle⟩
  · rfl
  · exact push_deeper middle clause

theorem run_ofUpdates_deeper (updates : List (Update Identifier)) :
    run (Step.ofUpdates updates) draft.deeper = (run (Step.ofUpdates updates) draft).deeper := by
  induction updates generalizing draft with
  | nil => rfl
  | cons change rest ih =>
      have hcall : step (.call (.update change)) draft.deeper =
          (step (.call (.update change)) draft).deeper := call_deeper draft _
      rw [Step.ofUpdates, List.map_cons, run_cons, run_cons, hcall]
      exact ih _

/-- A finished block is folded in. -/
theorem fold_deeper (inside : Draft) (clause : Clause) :
    (draft.deeper.absorbScope inside.deeper).push clause =
      ((draft.absorbScope inside).push clause).deeper :=
  push_deeper (draft.absorbScope inside) clause

/-! ## Steps and runs -/

/-- The step does the same one level further down, if its blocks fit there. -/
def Sinks (s : Step) : Prop :=
  ∀ draft : Draft, draft.Fits (s.height + 1) → step s draft.deeper = (step s draft).deeper

theorem run_deeper_of_sinks {steps : List Step} (hsteps : ∀ s ∈ steps, Sinks s)
    {draft : Draft} (hfits : draft.Fits (Step.heightAll steps + 1)) :
    run steps draft.deeper = (run steps draft).deeper := by
  induction steps generalizing draft with
  | nil => rfl
  | cons first rest ih =>
      obtain ⟨hfirst, hrest⟩ := List.forall_mem_cons.mp hsteps
      have hlevels : max first.height (Step.heightAll rest) + 1 ≤
        Step.heightAll (first :: rest) + 1 := Nat.le_refl _
      have hhead : draft.Fits (first.height + 1) := hfits.mono (by omega)
      have htail : draft.Fits (Step.heightAll rest + 1) := hfits.mono (by omega)
      rw [run_cons, run_cons, hfirst draft hhead]
      exact ih hrest ((Continues.step first draft).fits.mpr htail)

theorem runBranches_deeper_of_sinks {branches : List (List Step)}
    (hbranches : ∀ branch ∈ branches, ∀ s ∈ branch, Sinks s) {draft : Draft}
    (hfits : draft.Fits (Step.heightBranches branches + 1 + 1)) :
    runBranches branches draft.deeper =
      ((runBranches branches draft).1.deeper, (runBranches branches draft).2) := by
  induction branches generalizing draft with
  | nil => rfl
  | cons branch rest ih =>
      obtain ⟨hbranch, hrest⟩ := List.forall_mem_cons.mp hbranches
      have hlevels : max (Step.heightAll branch) (Step.heightBranches rest) + 1 + 1 ≤
        Step.heightBranches (branch :: rest) + 1 + 1 := Nat.le_refl _
      have hinside : run branch (draft.deeper.inner {}) = (run branch (draft.inner {})).deeper :=
        run_deeper_of_sinks hbranch (Fits.inner (hfits.mono (by omega)) {})
      have htail : draft.Fits (Step.heightBranches rest + 1 + 1) := hfits.mono (by omega)
      have hfolded : runBranches rest
            (draft.deeper.absorb (run branch (draft.inner {})).deeper) =
          ((runBranches rest (draft.absorb (run branch (draft.inner {})))).1.deeper,
            (runBranches rest (draft.absorb (run branch (draft.inner {})))).2) :=
        ih hrest ((Continues.absorb draft _).fits.mpr htail)
      simp only [runBranches, hinside, hfolded]
      rfl

theorem sinks (s : Step) : Sinks s := by
  induction s with
  | token => exact fun draft _ => rfl
  | entity typeName =>
      intro draft _
      have hcatalog : draft.deeper.catalog = draft.catalog := rfl
      simp only [step, issue, entity, hcatalog]
      cases draft.catalog.describe typeName <;> rfl
  | call call => exact fun draft _ => call_deeper draft call
  | subquery body ihbody =>
      intro draft hfits
      have hinside : run body (draft.deeper.inner draft.deeper.known.scope) =
          (run body (draft.inner draft.known.scope)).deeper :=
        run_deeper_of_sinks ihbody (hfits.inner draft.known.scope)
      simp only [step_subquery, hfits.depthFault?, hfits.depthFault?_deeper, hinside]
      exact fold_deeper draft _ _
  | forEach item list updates =>
      intro draft hfits
      simp only [step_forEach, hfits.depthFault?, hfits.depthFault?_deeper, resolving_deeper]
      rcases hheading : draft.resolving (heading item list) with ⟨_ | ⟨item, list⟩, middle⟩
      · rfl
      · have hinside :
            run (Step.ofUpdates updates) (middle.deeper.inner middle.deeper.known.scope) =
              (run (Step.ofUpdates updates) (middle.inner middle.known.scope)).deeper :=
          run_ofUpdates_deeper (middle.inner middle.known.scope) updates
        simp only [hinside]
        exact fold_deeper middle _ _
  | union mode branches ihbranches =>
      intro draft hfits
      simp only [step_union, hfits.depthFault?, hfits.depthFault?_deeper,
        runBranches_deeper_of_sinks ihbranches hfits]
      exact push_deeper _ _

theorem run_deeper (steps : List Step) (draft : Draft)
    (hfits : draft.Fits (Step.heightAll steps + 1)) :
    run steps draft.deeper = (run steps draft).deeper :=
  run_deeper_of_sinks (fun s _ => sinks s) hfits

end Draft

end GraphQuery
