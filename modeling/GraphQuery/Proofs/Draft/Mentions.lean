import GraphQuery.Draft.Block

/-! # Mentions of a call

What a call resolves, in the order in which it does. Apart from the clause it makes, a call does
what resolving its mentions in turn does. -/

namespace GraphQuery

/-- A mention where it stands in a call: in a place that needs a text, or as an element of a
pattern, which may do without one. -/
inductive Site
  | text (mention : Mention)
  | element (mention : Mention)

def Site.mention : Site → Mention
  | .text mention | .element mention => mention

def Identifier.site (identifier : Identifier) : Site := .text { identifier }

/-! ## Sites -/

/-- An element of a pattern comes before the values of its properties. -/
def Mention.sites (mention : Mention) : List Site :=
  .element mention :: mention.properties.entries.map fun entry => entry.2.site

def Hop.sites (hop : Hop) : List Site :=
  hop.relationship.sites ++ hop.node.sites

def Pattern.sites (pattern : Pattern) : List Site :=
  pattern.path.toList.map .text ++
    (pattern.start.sites ++ pattern.hops.flatMap Hop.sites)

def Assignment.sites : Assignment Identifier → List Site
  | .property target value | .merge target value | .replace target value =>
      [target.site, value.site]
  | .labels target _ => [target.site]

def Removal.sites : Removal Identifier → List Site
  | .property target | .labels target _ => [target.site]

def Update.sites : Update Identifier → List Site
  | .set items => items.flatMap Assignment.sites
  | .remove items => items.flatMap Removal.sites
  | .delete _ targets => targets.map Identifier.site

mutual

def Formula.sites : Condition → List Site
  | .atom operand => [operand.site]
  | .comparison left _ right => [left.site, right.site]
  | .boolean _ operands => Formula.sitesOfAll operands
  | .raw _ => []

def Formula.sitesOfAll : List Condition → List Site
  | [] => []
  | operand :: rest => Formula.sites operand ++ Formula.sitesOfAll rest

end

def Call.sites : Call → List Site
  | .pattern _ patterns => patterns.flatMap Pattern.sites
  | .merge walk => walk.sites
  | .onMerge _ items => items.flatMap Assignment.sites
  | .condition formula => formula.sites
  | .project _ _ items | .yielding items => items.map .text
  | .orderBy keys => keys.map fun key => key.operand.site
  | .skip count | .limit count => [count.site]
  | .update change => change.sites
  | .unwind list item => [list.site, .text item]
  | .use _ | .call _ | .showCommand _ | .rawText _ => []

namespace Resolve

variable {α β : Type}

/-! ## Effects -/

/-- The action without what it results in. -/
def effect (action : Resolve α) : Resolve Unit := do
  let _ ← action
  return ()

theorem effect_bind (first : Resolve α) (rest : α → Resolve β) :
    effect (first >>= rest) = first >>= fun result => effect (rest result) :=
  bind_assoc ..

theorem effect_then (first : Resolve α) (rest : Resolve β) :
    (first >>= fun _ => rest) = effect first >>= fun _ => rest := by
  rw [effect, bind_assoc]
  exact congrArg (first >>= ·) (funext fun _ => (pure_bind () fun _ => rest).symm)

theorem effect_ok {action : Resolve α} {known after : Vocabulary} {result : α}
    (h : action known = .ok result after) : effect action known = .ok () after := by
  simp only [effect, Bind.bind, EStateM.bind, h]
  rfl

def ofSite : Site → Resolve Unit
  | .text mention => effect (reference mention)
  | .element mention => effect (use mention)

def ofSites (sites : List Site) : Resolve Unit :=
  sites.forM ofSite

theorem ofSites_cons (first : Site) (rest : List Site) :
    ofSites (first :: rest) = ofSite first >>= fun _ => ofSites rest := by
  rw [ofSites, List.forM_eq_forM, List.forM_cons]
  rfl

theorem ofSites_singleton (site : Site) : ofSites [site] = ofSite site := by
  rw [ofSites_cons]
  exact bind_pure_unit (x := ofSite site)

theorem ofSites_append (sites others : List Site) :
    ofSites (sites ++ others) = ofSites sites >>= fun _ => ofSites others :=
  List.forM_append

/-- A column fails as a reference does, and leaves what that leaves. -/
theorem effect_column (mention : Mention) : effect (column mention) = ofSite (.text mention) := by
  rw [ofSite, column, reference, effect_bind, effect_bind]
  refine congrArg (use mention >>= ·) (funext fun used => ?_)
  cases used.found.reference? <;> rfl

/-- The action does what resolving the sites in turn does. -/
def Walks (sites : List Site) (action : Resolve α) : Prop :=
  effect action = ofSites sites

namespace Walks

theorem pure (result : α) : Walks [] (Pure.pure result : Resolve α) := rfl

theorem bind {before after : List Site} {first : Resolve α} {rest : α → Resolve β}
    (hfirst : Walks before first) (hrest : ∀ result, Walks after (rest result)) :
    Walks (before ++ after) (first >>= rest) := by
  have hsame : (fun result => effect (rest result)) = fun _ => ofSites after :=
    funext hrest
  rw [Walks, effect_bind, hsame, effect_then, hfirst, ofSites_append]

theorem map {sites : List Site} {action : Resolve α} (h : Walks sites action)
    (f : α → β) : Walks sites (action >>= fun result => Pure.pure (f result)) := by
  have hbind := h.bind fun result => pure (f result)
  rwa [List.append_nil] at hbind

theorem single {site : Site} {action : Resolve α}
    (h : effect action = ofSite site) : Walks [site] action :=
  h.trans (ofSites_singleton site).symm

/-! ## Mentions -/

theorem reference (mention : Mention) : Walks [.text mention] (reference mention) := single rfl

theorem value (identifier : Identifier) : Walks [identifier.site] (value identifier) :=
  reference { identifier }

theorem used (mention : Mention) : Walks [.element mention] (use mention) := single rfl

theorem column (mention : Mention) : Walks [.text mention] (column mention) :=
  single (effect_column mention)

/-! ## Calls -/

theorem mapM {f : α → Resolve β} {sites : α → List Site}
    (h : ∀ a, Walks (sites a) (f a)) (list : List α) :
    Walks (list.flatMap sites) (list.mapM f) := by
  induction list with
  | nil => exact pure []
  | cons first rest ih =>
      rw [List.mapM_cons, List.flatMap_cons]
      exact (h first).bind fun result => ih.map (result :: ·)

theorem mapM_single {f : α → Resolve β} {site : α → Site}
    (h : ∀ a, Walks [site a] (f a)) (list : List α) :
    Walks (list.map site) (list.mapM f) := by
  rw [List.map_eq_flatMap]
  exact mapM h list

theorem property (entry : String × Identifier) :
    Walks [entry.2.site] (property entry) :=
  (value entry.2).map _

theorem element (mention : Mention) : Walks mention.sites (element mention) :=
  (used mention).bind fun _ => (mapM_single property mention.properties.entries).map _

theorem link (hop : Hop) : Walks hop.sites (link hop) :=
  (element hop.relationship).bind fun _ => (element hop.node).map _

theorem path : ∀ mention : Option Mention,
    Walks (mention.toList.map .text) (mention.mapM Resolve.reference)
  | none => pure none
  | some mention => (reference mention).map some

theorem chain (pattern : Pattern) : Walks pattern.sites (chain pattern) :=
  (path pattern.path).bind fun _ => (element pattern.start).bind fun _ =>
    (mapM link pattern.hops).map _

theorem sortKey (key : SortKey Identifier) : Walks [key.operand.site] (sortKey key) :=
  (value key.operand).map _

theorem assignment (item : Assignment Identifier) :
    Walks item.sites (item.mapM Resolve.value) := by
  cases item with
  | property target other => exact (value target).bind fun _ => (value other).map _
  | labels target labels => exact (value target).map _
  | merge target other => exact (value target).bind fun _ => (value other).map _
  | replace target other => exact (value target).bind fun _ => (value other).map _

theorem removal (item : Removal Identifier) : Walks item.sites (item.mapM Resolve.value) := by
  cases item with
  | property target => exact (value target).map _
  | labels target labels => exact (value target).map _

theorem update (change : Update Identifier) :
    Walks change.sites (change.mapM Resolve.value) := by
  cases change with
  | set items => exact (mapM assignment items).map _
  | remove items => exact (mapM removal items).map _
  | delete detach targets => exact (mapM_single value targets).map _

mutual

theorem formula : ∀ formula : Condition, Walks formula.sites (formula.mapM Resolve.value)
  | .atom operand => (value operand).map _
  | .comparison left _ right => (value left).bind fun _ => (value right).map _
  | .boolean _ operands => (formulas operands).map _
  | .raw _ => pure _

theorem formulas : ∀ operands : List Condition,
    Walks (Formula.sitesOfAll operands) (Formula.mapOperandsM Resolve.value operands)
  | [] => pure []
  | operand :: rest => (formula operand).bind fun _ => (formulas rest).map _

end

theorem clause (call : Call) : Walks call.sites call.clause := by
  cases call with
  | pattern verb patterns => exact (mapM chain patterns).map _
  | merge walk => exact (chain walk).map _
  | onMerge outcome items => exact (mapM assignment items).map _
  | condition condition => exact (formula condition).map _
  | project verb distinct items => exact (mapM_single column items).map _
  | orderBy keys => exact (mapM_single sortKey keys).map _
  | skip count => exact (value count).map _
  | limit count => exact (value count).map _
  | update change => exact (update change).map _
  | unwind list item => exact (value list).bind fun _ => (reference item).map _
  | yielding items => exact (mapM_single column items).map _
  | _ => exact pure _

/-- The list of a loop comes before its item. -/
theorem heading (item list : Identifier) :
    Walks [list.site, item.site] (Draft.heading item list) :=
  (value list).bind fun _ => (value item).map _

end Walks

end Resolve

end GraphQuery
