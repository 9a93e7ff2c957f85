import Mathlib.Data.List.Forall2
import GraphQuery.Draft.Program
import GraphQuery.Proofs.Clause.Bindings
import GraphQuery.Proofs.Draft.History
import GraphQuery.Proofs.OrderedMap

/-! # Unions

A union compiles to its branches compiled apart: no branch sees what another has built, and of
what it leaves nothing is lost but what is there already. -/

namespace GraphQuery

/-- What stands between the texts of two branches. -/
def UnionMode.separator (mode : UnionMode) : String := "\n" ++ mode.keyword.text ++ "\n"

/-! ## The clause of a union -/

namespace Clause

variable (mode : UnionMode) {bodies : List (List Clause)}

theorem checkBranches_eq_ok_iff :
    checkBranches bodies = .ok () ↔ ∀ body ∈ bodies, checkPlacement body = .ok () := by
  induction bodies with
  | nil => simp [checkBranches]
  | cons body rest ih =>
      rw [List.forall_mem_cons, ← ih, checkBranches, checkPlacement]
      cases checkFrom none body with
      | error fault => exact ⟨nofun, nofun⟩
      | ok _ => exact ⟨fun h => ⟨rfl, h⟩, And.right⟩

theorem checkPlacement_union :
    checkPlacement [.union mode bodies] = .ok () ↔
      ∀ body ∈ bodies, checkPlacement body = .ok () := by
  have hfree : mode.keyword.mayFollow none = true := by cases mode <;> rfl
  rw [← checkBranches_eq_ok_iff, checkPlacement, checkFrom, keyword, if_pos hfree, checkInside]
  cases checkBranches bodies with
  | error fault => exact iff_of_false (fun h => by cases h) (fun h => by cases h)
  | ok _ => exact Iff.rfl

theorem branchLines_ne_nil (hbodies : bodies ≠ [])
    (hlines : ∀ body ∈ bodies, linesAll 0 body ≠ []) : branchLines 0 mode bodies ≠ [] := by
  match bodies with
  | [] => exact absurd rfl hbodies
  | [body] => simpa [branchLines] using hlines
  | body :: next :: rest => simp [branchLines]

theorem textAll_union (hlines : ∀ body ∈ bodies, linesAll 0 body ≠ []) :
    textAll 0 [.union mode bodies] =
      Text.joinWith mode.separator (bodies.map (textAll 0)) := by
  have hkeyword : lineAt 0 mode.keyword.text = mode.keyword.text := by cases mode <;> rfl
  rw [textAll, linesAll, linesAll, List.append_nil, lines]
  induction bodies with
  | nil => rfl
  | cons body rest ih =>
      obtain ⟨hbody, hrest⟩ := List.forall_mem_cons.mp hlines
      cases rest with
      | nil => rfl
      | cons next rest =>
          have hnext : branchLines 0 mode (next :: rest) ≠ [] :=
            branchLines_ne_nil mode (List.cons_ne_nil _ _) hrest
          rw [branchLines, Text.joinWith_append _ _ _ hbody (List.cons_ne_nil _ _),
            ← List.singleton_append, Text.joinWith_append _ _ _ (List.cons_ne_nil _ _) hnext,
            ih hrest, hkeyword]
          simp only [textAll, UnionMode.separator, List.map_cons, Text.joinWith_cons_cons,
            Text.joinWith_singleton, String.append_assoc]

theorem bindingsOfAll_union :
    bindingsOfAll [] [.union mode bodies] = (bodies.flatMap (bindingsOfAll [])).eraseDups := by
  have hreturned : (returnedOfBranches bodies).filterMap Column.binding? =
      bodies.flatMap fun body => (returnedOfAll body).filterMap Column.binding? := by
    induction bodies with
    | nil => rfl
    | cons body rest ih =>
        rw [returnedOfBranches, List.filterMap_append, ih, List.flatMap_cons]
  have heach : bindingsOfAll [] =
      fun body => ((returnedOfAll body).filterMap Column.binding?).eraseDups :=
    funext fun body => by rw [bindingsOfAll_eq, addBindings_nil]
  rw [bindingsOfAll_eq, addBindings_nil, heach, eraseDups_flatMap_eraseDups, ← hreturned,
    returnedOfAll, returnedOfAll, List.append_nil, returned]

end Clause

/-! ## Queries -/

namespace Query

/-- A query made of others: their texts with the mode's keyword on a line between neighbours, each
of their bindings once, and each of their parameters where it comes first with the value that
comes last. -/
structure Joins (query : Query) (mode : UnionMode) (queries : List Query) : Prop where
  text : query.text = Text.joinWith mode.separator (queries.map Query.text)
  bindings : query.bindings = (queries.flatMap Query.bindings).eraseDups
  parameters : query.parameters.Gathers (queries.flatMap fun query => query.parameters.entries)

end Query

/-! ## Branches apart -/

namespace Draft

/-- The branches of a union, each built on a draft with nothing there but the tokens issued when
the one before is done. -/
def alone (catalog : Catalog) (settings : Settings) : Nat → List (Draft → Draft) → List Draft
  | _, [] => []
  | issued, build :: rest =>
      let inside := build { catalog, settings, issued, depth := 1 }
      inside :: alone catalog settings (max issued inside.issued) rest

/-- A program goes on counting where the one before has stopped. -/
theorem alone_runs (catalog : Catalog) (settings : Settings) (issued : Nat) (branch : List Step)
    (rest : List (List Step)) :
    alone catalog settings issued (runs (branch :: rest)) =
      let inside := run branch { catalog, settings, issued, depth := 1 }
      inside :: alone catalog settings inside.issued (runs rest) := by
  have hcount : issued ≤ (run branch { catalog, settings, issued, depth := 1 }).issued :=
    (Continues.run branch { catalog, settings, issued, depth := 1 }).issued
  rw [runs, alone, Nat.max_eq_right hcount]

theorem branchesM_eq_alone (branches : List (Draft → Draft)) {draft : Draft}
    (htop : draft.depth = 0) :
    Id.run (draft.branchesM (branches.map fun build inside => pure (build inside))) =
      let insides := alone draft.catalog draft.settings draft.issued branches
      (insides.foldl absorb draft, insides.map Draft.clauses) := by
  induction branches generalizing draft with
  | nil => rfl
  | cons build rest ih =>
      have hinner : draft.inner {} =
          { catalog := draft.catalog, settings := draft.settings, issued := draft.issued,
            depth := 1 } := by
        rw [inner, htop]
      have hstep : Id.run (draft.branchesM
            ((build :: rest).map fun build inside => pure (build inside))) =
          let inside := build (draft.inner {})
          let later := Id.run ((draft.absorb inside).branchesM
            (rest.map fun build inside => pure (build inside)))
          (later.1, inside.clauses :: later.2) := rfl
      have htop' : (draft.absorb (build (draft.inner {}))).depth = 0 := htop
      rw [hstep]
      simp only [ih htop']
      rw [hinner]
      rfl

/-- The parameters of drafts one after another. -/
def parametersOfAll (drafts : List Draft) : List (String × Value) :=
  drafts.flatMap fun draft => draft.known.parameters.entries

/-- Branches without faults only add their parameters in turn, and their tokens. -/
theorem foldl_absorb {insides : List Draft} (hcalm : ∀ inside ∈ insides, inside.fault = none)
    (draft : Draft) :
    ∃ issued, insides.foldl absorb draft =
      { draft with
        known := { draft.known with
          parameters := draft.known.parameters.insertAll (parametersOfAll insides) }
        issued } := by
  induction insides generalizing draft with
  | nil => exact ⟨draft.issued, rfl⟩
  | cons inside rest ih =>
      obtain ⟨hinside, hrest⟩ := List.forall_mem_cons.mp hcalm
      obtain ⟨issued, hfold⟩ := ih hrest (draft.absorb inside)
      refine ⟨issued, ?_⟩
      rw [List.foldl_cons, hfold, parametersOfAll, parametersOfAll, List.flatMap_cons,
        OrderedMap.insertAll_append]
      simp [absorb, hinside]

theorem alone_ne_nil (catalog : Catalog) (settings : Settings) (issued : Nat)
    {branches : List (Draft → Draft)} (hbranches : branches ≠ []) :
    alone catalog settings issued branches ≠ [] := by
  obtain ⟨build, rest, rfl⟩ := List.exists_cons_of_ne_nil hbranches
  exact List.cons_ne_nil _ _

theorem joins_queries (mode : UnionMode) {insides : List Draft}
    (hlines : ∀ inside ∈ insides, Clause.linesAll 0 inside.clauses ≠ []) :
    (Query.ofPlaced [.union mode (insides.map Draft.clauses)]
      (.ofList (parametersOfAll insides))).Joins mode (insides.map query) where
  text := by
    rw [Query.ofPlaced, Clause.textAll_union mode (List.forall_mem_map.mpr hlines), List.map_map,
      List.map_map]
    rfl
  bindings := by
    rw [Query.ofPlaced, Clause.bindingsOfAll_union, List.flatMap_map, List.flatMap_map]
    rfl
  parameters := by
    rw [List.flatMap_map]
    exact OrderedMap.gathers_ofList (parametersOfAll insides)

section

variable {catalog : Catalog} {settings : Settings} {issued : Nat} (mode : UnionMode)
  {branches : List (Draft → Draft)} (hdepth : 1 ≤ settings.maxDepth) (hbranches : branches ≠ [])
  (hcalm : ∀ inside ∈ alone catalog settings issued branches, inside.fault = none)
include hdepth hbranches hcalm

/-- A union leaves the clauses of its branches in one, and their parameters. -/
theorem union_eq_alone :
    ∃ count, union { catalog, settings, issued } mode branches =
      let insides := alone catalog settings issued branches
      { catalog, settings
        issued := count
        clauses := [.union mode (insides.map Draft.clauses)]
        known := { parameters := .ofList (parametersOfAll insides) } } := by
  have hfits : Draft.depthFault? { catalog, settings, issued } = none := if_pos hdepth
  obtain ⟨count, hfold⟩ := foldl_absorb hcalm { catalog, settings, issued }
  have hsome : (Clause.union mode
      ((alone catalog settings issued branches).map Draft.clauses)).isEmpty = false := by
    simpa [Clause.isEmpty] using alone_ne_nil catalog settings issued hbranches
  refine ⟨count, ?_⟩
  rw [union_eq, hfits, branchesM_eq_alone branches rfl]
  simp only [hfold, push_eq hsome]
  rfl

/-- A union of branches that print anything, built on nothing else, leaves the variables alone.
It compiles just when the clauses of each branch do, and then to their queries joined. -/
theorem union_joins_branches
    (hlines : ∀ inside ∈ alone catalog settings issued branches,
      Clause.linesAll 0 inside.clauses ≠ []) :
    (union { catalog, settings, issued } mode branches).known.scope =
        ({ catalog, settings, issued } : Draft).known.scope ∧
      ((∃ query, (union { catalog, settings, issued } mode branches).compile = .ok query) ↔
        ∀ inside ∈ alone catalog settings issued branches,
          ∃ query, Query.compile inside.clauses inside.known.parameters = .ok query) ∧
      ∀ query, (union { catalog, settings, issued } mode branches).compile = .ok query →
        ∃ queries, List.Forall₂
            (fun inside query =>
              Query.compile inside.clauses inside.known.parameters = .ok query)
            (alone catalog settings issued branches) queries ∧
          query.Joins mode queries := by
  obtain ⟨count, hunion⟩ := union_eq_alone mode hdepth hbranches hcalm
  have hplaced : Clause.checkPlacement
        [.union mode ((alone catalog settings issued branches).map Draft.clauses)] = .ok () ↔
      ∀ inside ∈ alone catalog settings issued branches,
        Clause.checkPlacement inside.clauses = .ok () := by
    rw [Clause.checkPlacement_union, List.forall_mem_map]
  rw [hunion]
  refine ⟨rfl, ?_, fun query hquery => ?_⟩
  · simp only [compile_eq_ok_iff, Query.compile_eq_ok_iff, exists_and_left, exists_eq, and_true,
      true_and, hplaced]
  · obtain ⟨-, hplacement, rfl⟩ := compile_eq_ok_iff.mp hquery
    refine ⟨_, List.forall₂_map_right_iff.mpr (List.forall₂_same.mpr fun inside hinside => ?_),
      joins_queries mode hlines⟩
    exact Query.compile_eq_ok_iff.mpr ⟨hplaced.mp hplacement inside hinside, rfl⟩

end

/-- Branches that share a parameter and fill one destination, the last with a token of its own. -/
def sharingBranches : List (List Step) :=
  [[.call (.unwind (.parameter "rows" (.list [])) { identifier := .name "x" }),
      .call (.project .returning false [{ identifier := .ofToken ⟨1⟩, name := some "x" }])],
    [.token, .call (.rawText "MATCH (x)\nWHERE x.id = 1"),
      .call (.project .returning true [{ identifier := .ofToken ⟨1⟩, name := some "x" }])],
    [.token, .call (.unwind (.parameter "rows" .null) { identifier := .name "y" }),
      .call (.project .returning false [{ identifier := .ofToken ⟨3⟩, name := some "x" }])]]

theorem union_joins_branches_sharingBranches :
    (alone {} {} 1 (runs sharingBranches)).map Draft.issued = [1, 2, 3] ∧
      (union { issued := 1 } .all (runs sharingBranches)).known.scope =
        ({ issued := 1 } : Draft).known.scope ∧
      ∃ query, (union { issued := 1 } .all (runs sharingBranches)).compile = .ok query ∧
        ∃ queries, List.Forall₂
            (fun inside query =>
              Query.compile inside.clauses inside.known.parameters = .ok query)
            (alone {} {} 1 (runs sharingBranches)) queries ∧
          query.Joins .all queries := by
  obtain ⟨hscope, -, hjoins⟩ := @union_joins_branches {} {} 1 .all (runs sharingBranches)
    (by decide) (List.cons_ne_nil _ _) (by decide) (by decide)
  refine ⟨?_, hscope, _, rfl, hjoins _ rfl⟩
  simp only [sharingBranches, alone_runs]
  decide

end Draft

end GraphQuery
