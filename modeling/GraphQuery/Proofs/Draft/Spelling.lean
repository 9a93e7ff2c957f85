import GraphQuery.Proofs.Draft.Events

/-! # Spelling

Whether a text is taken for a name or for an expression makes no difference to a program: it
appends the same clauses, fails in the same way, issues the same tokens, and compiles to the same
query. -/

namespace GraphQuery

/-! ## Identifiers in place of others -/

namespace OrderedMap

variable {κ α β : Type} [DecidableEq κ]

def mapValues (f : α → β) (map : OrderedMap κ α) : OrderedMap κ β where
  entries := map.entries.map fun entry => (entry.1, f entry.2)
  distinct := by
    rw [List.map_map]
    exact map.distinct

end OrderedMap

section

variable (f : Identifier → Identifier)

def Mention.map (mention : Mention) : Mention :=
  { mention with
    identifier := f mention.identifier
    properties := mention.properties.mapValues f }

def Detail.map : Detail → Detail
  | .properties entries => .properties (entries.map fun entry => (entry.1, f entry.2))
  | detail => detail

def Hop.map (hop : Hop) : Hop :=
  { hop with relationship := hop.relationship.map f, node := hop.node.map f }

def Pattern.map (pattern : Pattern) : Pattern where
  start := pattern.start.map f
  hops := pattern.hops.map (Hop.map f)
  path := pattern.path.map (Mention.map f)

def Assignment.map : Assignment Identifier → Assignment Identifier
  | .property target value => .property (f target) (f value)
  | .labels target names => .labels (f target) names
  | .merge target value => .merge (f target) (f value)
  | .replace target value => .replace (f target) (f value)

def Removal.map : Removal Identifier → Removal Identifier
  | .property target => .property (f target)
  | .labels target names => .labels (f target) names

def Update.map : Update Identifier → Update Identifier
  | .set items => .set (items.map (Assignment.map f))
  | .remove items => .remove (items.map (Removal.map f))
  | .delete detach targets => .delete detach (targets.map f)

def SortKey.map (key : SortKey Identifier) : SortKey Identifier :=
  { key with operand := f key.operand }

def Call.map : Call → Call
  | .pattern verb patterns => .pattern verb (patterns.map (Pattern.map f))
  | .merge walk => .merge (walk.map f)
  | .onMerge outcome items => .onMerge outcome (items.map (Assignment.map f))
  | .condition formula => .condition (formula.map f)
  | .project verb distinct items => .project verb distinct (items.map (Mention.map f))
  | .orderBy keys => .orderBy (keys.map (SortKey.map f))
  | .skip count => .skip (f count)
  | .limit count => .limit (f count)
  | .update change => .update (change.map f)
  | .unwind list item => .unwind (f list) (item.map f)
  | .yielding items => .yielding (items.map (Mention.map f))
  | .use database => .use database
  | .call procedure => .call procedure
  | .showCommand command => .showCommand command
  | .rawText text => .rawText text

mutual

/-- The step with every identifier in it, and in the blocks it begins, replaced. -/
def Step.map : Step → Step
  | .token => .token
  | .entity typeName => .entity typeName
  | .call c => .call (c.map f)
  | .subquery body => .subquery (Step.mapAll body)
  | .forEach item list updates => .forEach (f item) (f list) (updates.map (Update.map f))
  | .union mode branches => .union mode (Step.mapBranches branches)

def Step.mapAll : List Step → List Step
  | [] => []
  | first :: rest => Step.map first :: Step.mapAll rest

def Step.mapBranches : List (List Step) → List (List Step)
  | [] => []
  | branch :: rest => Step.mapAll branch :: Step.mapBranches rest

end

end

/-! ## Names and expressions -/

/-- The identifier, with a text that is taken for an expression taken for a name. -/
def Identifier.plain : Identifier → Identifier
  | .raw text => .name text
  | identifier => identifier

/-- The programs differ only in which of their texts are names and which are expressions. -/
def Step.Alike (first second : List Step) : Prop :=
  Step.mapAll Identifier.plain first = Step.mapAll Identifier.plain second

theorem Identifier.plain_ofText (text : String) : (ofText text).plain = .name text := by
  unfold ofText
  split <;> rfl

/-! ## Mentions -/

namespace OrderedMap

variable {κ α β : Type} [DecidableEq κ]

theorem write_map (f : α → β) (key : κ) (value : α) (entries : List (κ × α)) :
    write key (f value) (entries.map fun entry => (entry.1, f entry.2)) =
      (write key value entries).map fun entry => (entry.1, f entry.2) := by
  induction entries with
  | nil => rfl
  | cons entry rest ih =>
      simp only [List.map_cons, write]
      split
      · rfl
      · rw [ih, List.map_cons]

theorem mapValues_insert (f : α → β) (map : OrderedMap κ α) (key : κ) (value : α) :
    (map.insert key value).mapValues f = (map.mapValues f).insert key (f value) :=
  ext_entries (write_map f key value map.entries).symm

theorem mapValues_insertAll (f : α → β) (map : OrderedMap κ α) (entries : List (κ × α)) :
    (map.insertAll entries).mapValues f =
      (map.mapValues f).insertAll (entries.map fun entry => (entry.1, f entry.2)) := by
  induction entries generalizing map with
  | nil => rfl
  | cons entry rest ih =>
      rw [List.map_cons, insertAll_cons, insertAll_cons, ih, mapValues_insert]

end OrderedMap

namespace Mention

variable (f : Identifier → Identifier)

theorem map_add (mention : Mention) (detail : Detail) :
    (mention.add detail).map f = (mention.map f).add (detail.map f) := by
  cases detail with
  | properties entries =>
      simp only [map, add, Detail.map, OrderedMap.mapValues_insertAll]
  | _ => rfl

theorem map_addAll (mention : Mention) (details : List Detail) :
    (mention.addAll details).map f = (mention.map f).addAll (details.map (Detail.map f)) := by
  induction details generalizing mention with
  | nil => rfl
  | cons first rest ih =>
      have hfirst := ih (mention.add first)
      rw [map_add] at hfirst
      exact hfirst

/-- Whether a qualifier is refused, and with which message, depends on the text alone. -/
theorem qualified_plain (identifier : Identifier) (qualifier : String) (details : List Detail) :
    qualified identifier.plain qualifier (details.map (Detail.map Identifier.plain)) =
      (qualified identifier qualifier details).map (Mention.map Identifier.plain) := by
  have htext : identifier.plain.text? = identifier.text? := by cases identifier <;> rfl
  have hadded : addAll { identifier := identifier.plain } (details.map (Detail.map .plain)) =
      (addAll { identifier } details).map .plain := (map_addAll .plain { identifier } details).symm
  unfold qualified
  rw [htext, hadded]
  generalize addAll { identifier } details = mention
  cases identifier.text? with
  | none => rfl
  | some text =>
      have hname : (mention.map .plain).name = mention.name := rfl
      simp only [hname]
      cases mention.name <;> rfl

end Mention

/-! ## Calls -/

namespace Resolve

variable {α β : Type}

theorem use_plain (mention : Mention) : use (mention.map .plain) = use mention := by
  obtain ⟨identifier, _⟩ := mention
  cases identifier <;> rfl

theorem reference_plain (mention : Mention) :
    reference (mention.map .plain) = reference mention := by
  obtain ⟨identifier, _⟩ := mention
  cases identifier <;> rfl

theorem value_plain (identifier : Identifier) : value identifier.plain = value identifier :=
  reference_plain { identifier }

theorem column_plain (mention : Mention) : column (mention.map .plain) = column mention := by
  obtain ⟨identifier, _⟩ := mention
  cases identifier <;> rfl

/-- Items may be replaced by others that are resolved alike. -/
theorem mapM_alike {f : α → Resolve β} {g : α → α} (h : ∀ a, f (g a) = f a) (list : List α) :
    (list.map g).mapM f = list.mapM f := by
  rw [List.mapM_map]
  exact congrArg (list.mapM ·) (funext h)

theorem element_plain (mention : Mention) : element (mention.map .plain) = element mention := by
  have hproperties : (mention.map .plain).properties.entries.mapM property =
      mention.properties.entries.mapM property :=
    mapM_alike (fun entry => by rw [property, value_plain]; rfl) mention.properties.entries
  rw [element, use_plain, hproperties]
  rfl

theorem link_plain (hop : Hop) : link (hop.map .plain) = link hop := by
  have helements : element (hop.map .plain).relationship = element hop.relationship ∧
      element (hop.map .plain).node = element hop.node :=
    ⟨element_plain hop.relationship, element_plain hop.node⟩
  rw [link, helements.1, helements.2]
  rfl

theorem path_plain (mention : Option Mention) :
    (mention.map (Mention.map .plain)).mapM reference = mention.mapM reference := by
  cases mention with
  | none => rfl
  | some mention => exact congrArg (some <$> ·) (reference_plain mention)

theorem chain_plain (pattern : Pattern) : chain (pattern.map .plain) = chain pattern := by
  have hhops : (pattern.map .plain).hops.mapM link = pattern.hops.mapM link :=
    mapM_alike link_plain pattern.hops
  have hpath : (pattern.map .plain).path.mapM reference = pattern.path.mapM reference :=
    path_plain pattern.path
  have hstart : element (pattern.map .plain).start = element pattern.start :=
    element_plain pattern.start
  rw [chain, hhops, hpath, hstart]
  rfl

theorem assignment_plain (item : Assignment Identifier) :
    (item.map .plain).mapM value = item.mapM value := by
  cases item <;> simp only [Assignment.map, Assignment.mapM, value_plain]

theorem removal_plain (item : Removal Identifier) :
    (item.map .plain).mapM value = item.mapM value := by
  cases item <;> simp only [Removal.map, Removal.mapM, value_plain]

theorem update_plain (change : Update Identifier) :
    (change.map .plain).mapM value = change.mapM value := by
  cases change with
  | set items => simp only [Update.map, Update.mapM, mapM_alike assignment_plain]
  | remove items => simp only [Update.map, Update.mapM, mapM_alike removal_plain]
  | delete detach targets => simp only [Update.map, Update.mapM, mapM_alike value_plain]

theorem sortKey_plain (key : SortKey Identifier) : sortKey (key.map .plain) = sortKey key := by
  rw [sortKey, SortKey.map, value_plain]
  rfl

mutual

theorem formula_plain : ∀ formula : Condition, (formula.map .plain).mapM value = formula.mapM value
  | .atom operand => by simp only [Formula.map, Formula.mapM, value_plain]
  | .comparison left operator right => by simp only [Formula.map, Formula.mapM, value_plain]
  | .boolean connective operands => by
      rw [Formula.map, Formula.mapM, formulas_plain operands]
      rfl
  | .raw text => rfl

theorem formulas_plain : ∀ operands : List Condition,
    Formula.mapOperandsM value (Formula.mapOperands .plain operands) =
      Formula.mapOperandsM value operands
  | [] => rfl
  | operand :: rest => by
      rw [Formula.mapOperands, Formula.mapOperandsM, formula_plain operand, formulas_plain rest]
      rfl

end

theorem clause_plain (call : Call) : (call.map .plain).clause = call.clause := by
  cases call with
  | pattern verb patterns => simp only [Call.map, Call.clause, mapM_alike chain_plain]
  | merge walk => simp only [Call.map, Call.clause, chain_plain]
  | onMerge outcome items => simp only [Call.map, Call.clause, mapM_alike assignment_plain]
  | condition formula => simp only [Call.map, Call.clause, formula_plain]
  | project verb distinct items => simp only [Call.map, Call.clause, mapM_alike column_plain]
  | orderBy keys => simp only [Call.map, Call.clause, mapM_alike sortKey_plain]
  | skip count => simp only [Call.map, Call.clause, value_plain]
  | limit count => simp only [Call.map, Call.clause, value_plain]
  | update change => simp only [Call.map, Call.clause, update_plain]
  | unwind list item => simp only [Call.map, Call.clause, value_plain, reference_plain]
  | yielding items => simp only [Call.map, Call.clause, mapM_alike column_plain]
  | use _ | call _ | showCommand _ | rawText _ => rfl

theorem heading_plain (item list : Identifier) :
    Draft.heading item.plain list.plain = Draft.heading item list := by
  simp only [Draft.heading, value_plain]

end Resolve

/-! ## Programs -/

namespace Draft

theorem call_plain (c : Call) (draft : Draft) : draft.call (c.map .plain) = draft.call c := by
  rw [call, Resolve.clause_plain]
  rfl

theorem callEvents_plain (c : Call) (draft : Draft) :
    draft.callEvents (c.map .plain) = draft.callEvents c := by
  rw [callEvents, Resolve.clause_plain]
  rfl

/-- The step does the same, and the same happens, however its texts are spelled. -/
structure Unseen (s : Step) : Prop where
  step : ∀ draft, step (s.map .plain) draft = Draft.step s draft
  events : ∀ draft, stepEvents (s.map .plain) draft = stepEvents s draft

section

variable {steps : List Step} {branches : List (List Step)}

theorem run_plain_of_unseen (hsteps : ∀ s ∈ steps, Unseen s) (draft : Draft) :
    run (Step.mapAll .plain steps) draft = run steps draft := by
  induction steps generalizing draft with
  | nil => rfl
  | cons first rest ih =>
      obtain ⟨hfirst, hrest⟩ := List.forall_mem_cons.mp hsteps
      rw [Step.mapAll, run_cons, run_cons, hfirst.step, ih hrest]

theorem events_plain_of_unseen (hsteps : ∀ s ∈ steps, Unseen s) (draft : Draft) :
    events (Step.mapAll .plain steps) draft = events steps draft := by
  induction steps generalizing draft with
  | nil => rfl
  | cons first rest ih =>
      obtain ⟨hfirst, hrest⟩ := List.forall_mem_cons.mp hsteps
      rw [Step.mapAll, events, events, hfirst.events, hfirst.step, ih hrest]

theorem runBranches_plain_of_unseen (hbranches : ∀ branch ∈ branches, ∀ s ∈ branch, Unseen s)
    (draft : Draft) :
    runBranches (Step.mapBranches .plain branches) draft = runBranches branches draft := by
  induction branches generalizing draft with
  | nil => rfl
  | cons branch rest ih =>
      obtain ⟨hbranch, hrest⟩ := List.forall_mem_cons.mp hbranches
      simp only [Step.mapBranches, runBranches, run_plain_of_unseen hbranch, ih hrest]

theorem branchEvents_plain_of_unseen (hbranches : ∀ branch ∈ branches, ∀ s ∈ branch, Unseen s)
    (draft : Draft) :
    branchEvents (Step.mapBranches .plain branches) draft = branchEvents branches draft := by
  induction branches generalizing draft with
  | nil => rfl
  | cons branch rest ih =>
      obtain ⟨hbranch, hrest⟩ := List.forall_mem_cons.mp hbranches
      simp only [Step.mapBranches, branchEvents, run_plain_of_unseen hbranch,
        events_plain_of_unseen hbranch, ih hrest]

end

theorem updates_plain (updates : List (Update Identifier)) :
    Step.ofUpdates (updates.map (Update.map .plain)) =
      Step.mapAll .plain (Step.ofUpdates updates) := by
  induction updates with
  | nil => rfl
  | cons change rest ih => exact congrArg (Step.call (.update (change.map .plain)) :: ·) ih

theorem unseen_call (c : Call) : Unseen (.call c) where
  step := call_plain c
  events := callEvents_plain c

theorem unseen (s : Step) : Unseen s := by
  induction s with
  | token => exact ⟨fun _ => rfl, fun _ => rfl⟩
  | entity typeName => exact ⟨fun _ => rfl, fun _ => rfl⟩
  | call c => exact unseen_call c
  | subquery body ihbody =>
      refine ⟨fun draft => ?_, fun draft => ?_⟩
      · rw [Step.map, step_subquery, step_subquery]
        simp only [run_plain_of_unseen ihbody]
      · rw [Step.map, stepEvents, stepEvents]
        simp only [run_plain_of_unseen ihbody, events_plain_of_unseen ihbody]
  | forEach item list updates =>
      have hupdates := Step.forall_mem_ofUpdates unseen_call updates
      refine ⟨fun draft => ?_, fun draft => ?_⟩
      · rw [Step.map, step_forEach, step_forEach]
        simp only [Resolve.heading_plain, updates_plain, run_plain_of_unseen hupdates]
      · rw [Step.map, stepEvents, stepEvents]
        simp only [Resolve.heading_plain, ← events_ofUpdates, updates_plain,
          run_plain_of_unseen hupdates, events_plain_of_unseen hupdates]
  | union mode branches ihbranches =>
      refine ⟨fun draft => ?_, fun draft => ?_⟩
      · rw [Step.map, step_union, step_union]
        simp only [runBranches_plain_of_unseen ihbranches]
      · rw [Step.map, stepEvents, stepEvents]
        simp only [runBranches_plain_of_unseen ihbranches, branchEvents_plain_of_unseen ihbranches]

/-- The two programs leave the same draft, and the same tokens are issued and the same calls fail in
them. Nor does spelling matter where a mention is made: a text that is not said to be either is
one or the other, and a qualifier is refused for both or for neither. -/
theorem spelling_unseen {first second : List Step} (halike : Step.Alike first second)
    (draft : Draft) :
    run first draft = run second draft ∧ events first draft = events second draft ∧
    (∀ text, (Identifier.ofText text).plain = (Identifier.raw text).plain) ∧
    ∀ {identifier identifier' : Identifier} {details details' : List Detail} (qualifier : String),
      identifier.plain = identifier'.plain →
      details.map (Detail.map .plain) = details'.map (Detail.map .plain) →
      (Mention.qualified identifier qualifier details).map (Mention.map .plain) =
        (Mention.qualified identifier' qualifier details').map (Mention.map .plain) := by
  have hrun : ∀ steps, run (Step.mapAll .plain steps) draft = run steps draft :=
    fun steps => run_plain_of_unseen (fun s _ => unseen s) draft
  have hevents : ∀ steps, events (Step.mapAll .plain steps) draft = events steps draft :=
    fun steps => events_plain_of_unseen (fun s _ => unseen s) draft
  refine ⟨?_, ?_, Identifier.plain_ofText, fun qualifier hidentifier hdetails => ?_⟩
  · rw [← hrun first, ← hrun second, halike]
  · rw [← hevents first, ← hevents second, halike]
  · rw [← Mention.qualified_plain, ← Mention.qualified_plain, hidentifier, hdetails]

/-- A text that is bound, compared, qualified and assigned, in blocks of all kinds. -/
def spelledSteps : List Step :=
  [.call (.project .passing false [{ identifier := .name "n", bind := some ⟨1⟩ }]),
    .subquery [.token, .call (.condition (.boolean .not [.comparison (.name "n") "=" (.raw "1")]))],
    .forEach (.name "x") (.raw "xs") [.set [.property (.raw "x.p") (.name "n")]],
    .union .all [[.call (.project .returning true [{ identifier := .name "n", name := some "m" }])],
      [.call (.limit (.name ""))]]]

/-- The same with most of the texts spelled the other way. -/
def respelledSteps : List Step :=
  [.call (.project .passing false [{ identifier := .raw "n", bind := some ⟨1⟩ }]),
    .subquery [.token, .call (.condition (.boolean .not [.comparison (.raw "n") "=" (.name "1")]))],
    .forEach (.raw "x") (.name "xs") [.set [.property (.name "x.p") (.raw "n")]],
    .union .all [[.call (.project .returning true [{ identifier := .name "n", name := some "m" }])],
      [.call (.limit (.raw ""))]]]

theorem spelling_unseen_respelledSteps :
    run spelledSteps {} = run respelledSteps {} ∧
    events spelledSteps {} = events respelledSteps {} ∧
    (Mention.qualified (.name "n") "q" [.name "m"]).map (Mention.map .plain) =
      (Mention.qualified (.raw "n") "q" [.name "m"]).map (Mention.map .plain) := by
  obtain ⟨hrun, hevents, -, hqualified⟩ := @spelling_unseen spelledSteps respelledSteps rfl {}
  exact ⟨hrun, hevents, hqualified "q" rfl rfl⟩

end Draft

end GraphQuery
