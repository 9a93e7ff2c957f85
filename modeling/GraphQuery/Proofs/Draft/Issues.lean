import GraphQuery.Proofs.Draft.Events
import GraphQuery.Proofs.Draft.History

/-! # Issued tokens

A block goes on with the count of tokens of the draft around it and hands its own count back, so
all drafts of a tree issue from one sequence. No token is issued twice, whatever is left out or
fails in between. -/

namespace GraphQuery

def Event.token? : Event → Option Token
  | .issued token => some token
  | .failed _ => none

/-- The tokens after the first `low` and up to the number `high`. -/
def Token.span (low high : Nat) : List Token :=
  (List.range' (low + 1) (high - low)).map Token.mk

namespace Token

@[simp] theorem span_self (count : Nat) : span count count = [] := by simp [span]

theorem span_succ (count : Nat) : span count (count + 1) = [⟨count + 1⟩] := by
  simp [span]

theorem span_append {low middle high : Nat} (hlow : low ≤ middle) (hhigh : middle ≤ high) :
    span low middle ++ span middle high = span low high := by
  have hstart : middle + 1 = low + 1 + 1 * (middle - low) := by omega
  have hcount : middle - low + (high - middle) = high - low := by omega
  rw [span, span, span, ← List.map_append, hstart, List.range'_append, hcount]

theorem span_nodup (low high : Nat) : (span low high).Nodup :=
  List.Pairwise.map Token.mk (fun _ _ hne h => hne (Token.mk.inj h)) List.nodup_range'

end Token

namespace Draft

/-- The tokens that are issued, in the order of their issue. -/
def issues (happened : List Event) : List Token := happened.filterMap Event.token?

theorem issues_append (before after : List Event) :
    issues (before ++ after) = issues before ++ issues after :=
  List.filterMap_append

/-! ## Clauses -/

theorem issues_push (clause : Clause) : issues (pushEvents clause) = [] := by
  unfold pushEvents
  split <;> rfl

theorem issues_call (draft : Draft) (call : Call) : issues (draft.callEvents call) = [] := by
  unfold callEvents
  rcases (draft.resolving call.clause).1 with fault | clause
  · rfl
  · exact issues_push clause

theorem push_issued (draft : Draft) (clause : Clause) :
    (draft.push clause).issued = draft.issued := by
  unfold push
  split <;> rfl

theorem call_issued (draft : Draft) (call : Call) : (draft.call call).issued = draft.issued := by
  unfold Draft.call
  rcases hresult : draft.resolving call.clause with ⟨fault | clause, middle⟩
  · obtain ⟨known, rfl⟩ := resolving_known hresult
    rfl
  · obtain ⟨known, rfl⟩ := resolving_known hresult
    exact push_issued _ clause

/-! ## Steps and runs -/

variable (draft : Draft)

/-- The step issues the tokens by which it takes the count further. -/
def Counts (s : Step) : Prop :=
  ∀ draft : Draft,
    issues (stepEvents s draft) = Token.span draft.issued (step s draft).issued

theorem counts_call (call : Call) : Counts (.call call) := by
  intro draft
  rw [stepEvents, issues_call, step, call_issued, Token.span_self]

theorem issues_of_counts {steps : List Step} (hsteps : ∀ s ∈ steps, Counts s) :
    issues (events steps draft) = Token.span draft.issued (run steps draft).issued := by
  induction steps generalizing draft with
  | nil => exact (Token.span_self draft.issued).symm
  | cons first rest ih =>
      obtain ⟨hfirst, hrest⟩ := List.forall_mem_cons.mp hsteps
      rw [events, issues_append, hfirst draft, ih _ hrest, run_cons]
      exact Token.span_append (Continues.step first draft).issued (Continues.run rest _).issued

/-- A block issues from where its draft stands, and the draft goes on from there. -/
theorem issues_inner {steps : List Step} (hsteps : ∀ s ∈ steps, Counts s) (scope : Scope) :
    issues (events steps (draft.inner scope)) =
      Token.span draft.issued (max draft.issued (run steps (draft.inner scope)).issued) := by
  have hcount : draft.issued ≤ (run steps (draft.inner scope)).issued :=
    (Continues.run steps (draft.inner scope)).issued
  rw [Nat.max_eq_right hcount]
  exact issues_of_counts (draft.inner scope) hsteps

theorem issues_branches_of_counts {branches : List (List Step)}
    (hbranches : ∀ branch ∈ branches, ∀ s ∈ branch, Counts s) :
    issues (branchEvents branches draft) =
      Token.span draft.issued (runBranches branches draft).1.issued := by
  induction branches generalizing draft with
  | nil => exact (Token.span_self draft.issued).symm
  | cons branch rest ih =>
      obtain ⟨hbranch, hrest⟩ := List.forall_mem_cons.mp hbranches
      have habsorb : draft.issued ≤ (draft.absorb (run branch (draft.inner {}))).issued :=
        (Continues.absorb draft _).issued
      have hlater :=
        (Continues.runBranches rest (draft.absorb (run branch (draft.inner {})))).issued
      rw [branchEvents, issues_append, issues_inner draft hbranch, ih _ hrest, runBranches]
      exact Token.span_append habsorb hlater

theorem counts (s : Step) : Counts s := by
  induction s with
  | token => exact fun draft => (Token.span_succ draft.issued).symm
  | entity typeName =>
      intro draft
      simp only [step, issue, stepEvents, entity]
      cases draft.catalog.describe typeName with
      | ok descriptor => exact (Token.span_succ draft.issued).symm
      | error _ => exact (Token.span_self draft.issued).symm
  | call call => exact counts_call call
  | subquery body ihbody =>
      intro draft
      rw [step_subquery, stepEvents]
      cases draft.depthFault? with
      | some fault => exact (Token.span_self draft.issued).symm
      | none =>
          simp only [issues_append, issues_push, List.append_nil, push_issued]
          exact issues_inner draft ihbody _
  | forEach item list updates =>
      intro draft
      rw [step_forEach, stepEvents]
      cases draft.depthFault? with
      | some fault => exact (Token.span_self draft.issued).symm
      | none =>
          rcases hresult : draft.resolving (heading item list) with
            ⟨fault | ⟨item, list⟩, middle⟩
          · obtain ⟨known, rfl⟩ := resolving_known hresult
            exact (Token.span_self draft.issued).symm
          · obtain ⟨known, rfl⟩ := resolving_known hresult
            simp only [issues_append, issues_push, List.append_nil, push_issued,
              ← events_ofUpdates]
            exact issues_inner { draft with known }
              (Step.forall_mem_ofUpdates counts_call updates) _
  | union mode branches ihbranches =>
      intro draft
      rw [step_union, stepEvents]
      cases draft.depthFault? with
      | some fault => exact (Token.span_self draft.issued).symm
      | none =>
          simp only [issues_append, issues_push, List.append_nil, push_issued]
          exact issues_branches_of_counts draft ihbranches

/-- The tokens that are issued in a run, in whatever blocks, are numbered from one in the order of
their issue. -/
theorem issued_in_order (catalog : Catalog) (settings : Settings) (steps : List Step) :
    (issues (events steps { catalog, settings })).map Token.number =
        List.range' 1 (run steps { catalog, settings }).issued ∧
      (issues (events steps { catalog, settings })).Nodup := by
  have hspan : issues (events steps { catalog, settings }) =
      Token.span 0 (run steps { catalog, settings }).issued :=
    issues_of_counts _ fun s _ => counts s
  rw [hspan]
  refine ⟨?_, Token.span_nodup 0 _⟩
  rw [Token.span, List.map_map]
  exact List.map_id _

end Draft

end GraphQuery
