import GraphQuery.Proofs.Draft.Filled
import GraphQuery.Proofs.Draft.Naming
import GraphQuery.Proofs.Draft.QueryText
import GraphQuery.Proofs.Scope.FieldText

/-! # Operands

The texts that stand in a clause for identifiers. None of them is empty: where a text is needed, an
identifier whose variable has none makes its call fail, and nothing is appended. -/

namespace GraphQuery

/-! ## Operands of clauses -/

section

variable {α : Type}

def Assignment.operands : Assignment α → List α
  | .property target value | .merge target value | .replace target value => [target, value]
  | .labels target _ => [target]

def Removal.operands : Removal α → List α
  | .property target | .labels target _ => [target]

def Update.operands : Update α → List α
  | .set items => items.flatMap Assignment.operands
  | .remove items => items.flatMap Removal.operands
  | .delete _ targets => targets

mutual

def Formula.operands : Formula α → List α
  | .atom operand => [operand]
  | .comparison left _ right => [left, right]
  | .boolean _ operands => Formula.operandsOfAll operands
  | .raw _ => []

def Formula.operandsOfAll : List (Formula α) → List α
  | [] => []
  | operand :: rest => Formula.operands operand ++ Formula.operandsOfAll rest

end

end

/-- The values of the properties. The variable of an element may do without a text. -/
def Element.operands (element : Element) : List String :=
  element.properties.entries.map Prod.snd

def Link.operands (link : Link) : List String := link.relationship.operands ++ link.node.operands

def Chain.operands (chain : Chain) : List String :=
  chain.path.toList ++ (chain.start.operands ++ chain.links.flatMap Link.operands)

/-- The texts of a clause that have been resolved from identifiers, of a column its name. Those of
the clauses inside are theirs. -/
def Clause.operands : Clause → List String
  | .pattern _ chains => chains.flatMap Chain.operands
  | .merge chain => chain.operands
  | .onMerge _ items => items.flatMap Assignment.operands
  | .condition formula => formula.operands
  | .project _ _ columns | .yielding columns => columns.map Column.name
  | .orderBy keys => keys.map SortKey.operand
  | .skip count | .limit count => [count]
  | .update change => change.operands
  | .unwind list item | .forEach item list _ => [list, item]
  | .use _ | .call _ | .showCommand _ | .subquery _ | .union _ _ | .rawText _ => []

/-! ## Texts that are read -/

def Site.reading (known : Vocabulary) : Site → List Moment
  | .text mention => [⟨mention, known⟩]
  | .element _ => []

/-- The uses of sites where a text is needed, the sites being resolved in turn. -/
def readings : List Site → Vocabulary → List Moment
  | [], _ => []
  | first :: rest, known =>
      first.reading known ++
        match Resolve.ofSite first known with
        | .ok _ after => readings rest after
        | .error _ _ => []

namespace Resolve

variable {α β : Type}

theorem readings_append {sites others : List Site} {known middle : Vocabulary}
    (h : ofSites sites known = .ok () middle) :
    readings (sites ++ others) known = readings sites known ++ readings others middle := by
  induction sites generalizing known with
  | nil =>
      cases h
      rfl
  | cons first rest ih =>
      rw [ofSites_cons] at h
      obtain ⟨_, between, hfirst, hrest⟩ := bind_ok h
      simp only [List.cons_append, readings, hfirst, ih hrest, List.append_assoc]

/-- The action resolves the sites, and what it results in is made of the texts that are read
there. -/
def Reads (sites : List Site) (Q : α → List String → Prop) (action : Resolve α) : Prop :=
  ∀ known result after, action known = .ok result after →
    ofSites sites known = .ok () after ∧ ∃ texts, Q result texts ∧
      (readings sites known).map (Moment.result? · reference) = texts.map some

namespace Reads

variable {sites others : List Site} {P : α → List String → Prop} {Q : β → List String → Prop}

theorem pure {result : α} (h : P result []) : Reads [] P (Pure.pure result) := by
  intro known result' after hresult
  cases hresult
  exact ⟨rfl, [], h, rfl⟩

theorem bind {first : Resolve α} {rest : α → Resolve β} (hfirst : Reads sites P first)
    (hrest : ∀ result texts, P result texts →
      Reads others (fun final more => Q final (texts ++ more)) (rest result)) :
    Reads (sites ++ others) Q (first >>= rest) := by
  intro known final after h
  obtain ⟨result, middle, hresult, hfinal⟩ := bind_ok h
  obtain ⟨hsites, texts, hP, htexts⟩ := hfirst known result middle hresult
  obtain ⟨hothers, more, hQ, hmore⟩ := hrest result texts hP middle final after hfinal
  refine ⟨?_, texts ++ more, hQ, ?_⟩
  · rw [ofSites_append, bind_of_ok hsites, hothers]
  · rw [readings_append hsites, List.map_append, List.map_append, htexts, hmore]

theorem map {action : Resolve α} {make : α → β} (h : Reads sites P action)
    (hmake : ∀ result texts, P result texts → Q (make result) texts) :
    Reads sites Q (action >>= fun result => Pure.pure (make result)) := by
  have hbind : Reads (sites ++ []) Q (action >>= fun result => Pure.pure (make result)) :=
    h.bind fun result texts hP => .pure ((List.append_nil texts).symm ▸ hmake result texts hP)
  rwa [List.append_nil] at hbind

theorem yields {action : Resolve α} (h : Reads sites P action) {R : α → Prop}
    (hyields : Yields R action) : Reads sites (fun result texts => P result texts ∧ R result)
      action := by
  intro known result after hresult
  obtain ⟨hsites, texts, hP, htexts⟩ := h known result after hresult
  exact ⟨hsites, texts, ⟨hP, hyields known result after hresult⟩, htexts⟩

theorem mapM {γ : Type} {f : γ → Resolve α} {sites : γ → List Site} {operands : α → List String}
    (h : ∀ item, Reads (sites item) (fun result texts => texts = operands result) (f item))
    (items : List γ) :
    Reads (items.flatMap sites) (fun results texts => texts = results.flatMap operands)
      (items.mapM f) := by
  induction items with
  | nil => exact .pure rfl
  | cons item rest ih =>
      rw [List.mapM_cons, List.flatMap_cons]
      refine (h item).bind ?_
      rintro result _ rfl
      refine ih.map ?_
      rintro results _ rfl
      rfl

theorem mapM_single {γ : Type} {f : γ → Resolve α} {site : γ → Site} {operand : α → String}
    (h : ∀ item, Reads [site item] (fun result texts => texts = [operand result]) (f item))
    (items : List γ) :
    Reads (items.map site) (fun results texts => texts = results.map operand) (items.mapM f) := by
  simp only [List.map_eq_flatMap]
  exact mapM h items

/-! ### Mentions -/

theorem single {mention : Mention} {action : Resolve α} {operand : α → String}
    (h : ∀ known result after, action known = .ok result after →
      reference mention known = .ok (operand result) after) :
    Reads [.text mention] (fun result texts => texts = [operand result]) action := by
  intro known result after hresult
  have hreference := h known result after hresult
  have hsite : ofSite (.text mention) known = .ok () after := effect_ok hreference
  refine ⟨?_, [operand result], rfl, ?_⟩
  · rw [ofSites_singleton, hsite]
  · simp [readings, Site.reading, hsite, Moment.result?, hreference]

theorem reference (mention : Mention) :
    Reads [.text mention] (fun text texts => texts = [text]) (reference mention) :=
  single fun _ _ _ h => h

theorem value (identifier : Identifier) :
    Reads [identifier.site] (fun text texts => texts = [text]) (value identifier) :=
  reference { identifier }

/-- A column is named by the text that a reference reads. -/
theorem column (mention : Mention) :
    Reads [.text mention] (fun column texts => texts = [column.name]) (column mention) := by
  refine single fun known result after h => ?_
  obtain ⟨used, middle, hused, hcolumn⟩ := bind_ok h
  cases hreference : used.found.reference? with
  | none =>
      rw [hreference] at hcolumn
      cases hcolumn
  | some name =>
      rw [hreference] at hcolumn
      cases hcolumn
      exact reference_ok hused hreference

theorem used (mention : Mention) :
    Reads [.element mention] (fun _ texts => texts = []) (use mention) := by
  intro known result after hresult
  have hsite : ofSite (.element mention) known = .ok () after := effect_ok hresult
  refine ⟨?_, [], rfl, ?_⟩
  · rw [ofSites_singleton, hsite]
  · simp [readings, Site.reading, hsite]

theorem sortKey (key : SortKey Identifier) :
    Reads [key.operand.site] (fun key texts => texts = [key.operand]) (sortKey key) :=
  (value key.operand).map fun _ _ h => h

/-! ### Patterns -/

theorem property (entry : String × Identifier) :
    Reads [entry.2.site] (fun entry texts => texts = [entry.2]) (property entry) :=
  (value entry.2).map fun _ _ h => h

/-- The values of the properties are kept, each under its own key. -/
theorem element (mention : Mention) :
    Reads mention.sites (fun element texts => texts = element.operands) (element mention) := by
  have hkey : ∀ entry, Yields (fun result => [result.1] = [entry.1]) (Resolve.property entry) :=
    fun _ => .map fun _ => rfl
  have hproperties := (mapM_single property mention.properties.entries).yields
    (.mapM hkey mention.properties.entries)
  refine (used mention).bind ?_
  rintro used _ rfl
  refine hproperties.map ?_
  rintro properties _ ⟨rfl, hkeys⟩
  rw [← List.map_eq_flatMap, ← List.map_eq_flatMap] at hkeys
  -- The keys are those of the mention, so collecting the entries again drops no value.
  have hdistinct : (properties.map Prod.fst).Nodup := hkeys ▸ mention.properties.distinct
  rw [Element.operands, OrderedMap.entries_ofList hdistinct, List.nil_append]

theorem link (hop : Hop) :
    Reads hop.sites (fun link texts => texts = link.operands) (link hop) := by
  refine (element hop.relationship).bind ?_
  rintro relationship _ rfl
  refine (element hop.node).map ?_
  rintro node _ rfl
  rfl

theorem path : ∀ mention : Option Mention,
    Reads (mention.toList.map .text) (fun path texts => texts = path.toList)
      (mention.mapM Resolve.reference)
  | none => .pure rfl
  | some mention => (reference mention).map fun _ _ h => h

theorem chain (pattern : Pattern) :
    Reads pattern.sites (fun chain texts => texts = chain.operands) (chain pattern) := by
  refine (path pattern.path).bind ?_
  rintro path _ rfl
  refine (element pattern.start).bind ?_
  rintro start _ rfl
  refine (mapM link pattern.hops).map ?_
  rintro links _ rfl
  rfl

/-! ### Updates and conditions -/

theorem pair {γ : Type} {R : γ → List String → Prop} (left right : Identifier)
    {make : String → String → γ} (hmake : ∀ first second, R (make first second) [first, second]) :
    Reads [left.site, right.site] R (do
      let first ← Resolve.value left
      let second ← Resolve.value right
      return make first second) := by
  refine (value left).bind ?_
  rintro first _ rfl
  refine (value right).map ?_
  rintro second _ rfl
  exact hmake first second

theorem assignment (item : Assignment Identifier) :
    Reads item.sites (fun item texts => texts = item.operands) (item.mapM Resolve.value) := by
  cases item with
  | labels target names => exact (value target).map fun _ _ h => h
  | property target other | merge target other | replace target other =>
      exact pair target other fun _ _ => rfl

theorem removal (item : Removal Identifier) :
    Reads item.sites (fun item texts => texts = item.operands) (item.mapM Resolve.value) := by
  cases item <;> exact (value _).map fun _ _ h => h

theorem update (change : Update Identifier) :
    Reads change.sites (fun change texts => texts = change.operands)
      (change.mapM Resolve.value) := by
  cases change with
  | set items => exact (mapM assignment items).map fun _ _ h => h
  | remove items => exact (mapM removal items).map fun _ _ h => h
  | delete detach targets =>
      exact (mapM_single value targets).map fun _ _ h => h.trans (List.map_id' _)

mutual

theorem formula : ∀ formula : Condition,
    Reads formula.sites (fun formula texts => texts = Formula.operands formula)
      (formula.mapM Resolve.value)
  | .atom operand => (value operand).map fun _ _ h => h
  | .comparison left _ right => pair left right fun _ _ => rfl
  | .boolean _ operands => (formulas operands).map fun _ _ h => h
  | .raw _ => .pure rfl

theorem formulas : ∀ operands : List Condition,
    Reads (Formula.sitesOfAll operands)
      (fun operands texts => texts = Formula.operandsOfAll operands)
      (Formula.mapOperandsM Resolve.value operands)
  | [] => .pure rfl
  | operand :: rest => by
      refine (formula operand).bind ?_
      rintro first _ rfl
      refine (formulas rest).map ?_
      rintro others _ rfl
      rfl

end

/-! ### Clauses -/

theorem clause (call : Call) :
    Reads call.sites (fun clause texts => texts = clause.operands) call.clause := by
  cases call with
  | pattern verb patterns => exact (mapM chain patterns).map fun _ _ h => h
  | merge walk => exact (chain walk).map fun _ _ h => h
  | onMerge outcome items => exact (mapM assignment items).map fun _ _ h => h
  | condition condition => exact (formula condition).map fun _ _ h => h
  | project verb distinct items => exact (mapM_single column items).map fun _ _ h => h
  | orderBy keys => exact (mapM_single sortKey keys).map fun _ _ h => h
  | skip count | limit count => exact (value count).map fun _ _ h => h
  | update change => exact (update change).map fun _ _ h => h
  | unwind list item =>
      refine (value list).bind ?_
      rintro first _ rfl
      refine (reference item).map ?_
      rintro second _ rfl
      rfl
  | yielding items => exact (mapM_single column items).map fun _ _ h => h
  | use _ | call _ | showCommand _ | rawText _ => exact .pure rfl

theorem heading (item list : Identifier) :
    Reads [list.site, item.site] (fun texts' texts => texts = [texts'.2, texts'.1])
      (Draft.heading item list) :=
  pair list item fun _ _ => rfl

end Reads

theorem yields_reference (mention : Mention) :
    Yields (fun text => text ≠ "") (reference mention) := by
  refine .next fun used => ?_
  cases hreference : used.found.reference? with
  | none => exact fun _ _ _ hfail => nomatch hfail
  | some text => exact .pure (Variable.ne_empty_of_reference? hreference)

/-- None of the texts that are read is empty. -/
theorem Reads.ne_empty {sites : List Site} {operands : α → List String} {action : Resolve α}
    (h : Reads sites (fun result texts => texts = operands result) action) :
    Yields (fun result => ∀ operand ∈ operands result, operand ≠ "") action := by
  intro known result after hresult operand hoperand
  obtain ⟨-, _, rfl, htexts⟩ := h known result after hresult
  have hread : some operand ∈
      (readings sites known).map (Moment.result? · Resolve.reference) := by
    rw [htexts]
    exact List.mem_map_of_mem hoperand
  obtain ⟨moment, -, hmoment⟩ := List.mem_map.mp hread
  unfold Moment.result? at hmoment
  split at hmoment
  · next text left htext =>
      cases hmoment
      exact yields_reference _ _ _ _ htext
  · cases hmoment

end Resolve

namespace Draft

theorem appended_operands :
    Appended fun clause => ∀ operand ∈ clause.operands, operand ≠ "" where
  call c known clause after hclause _ :=
    (Resolve.Reads.clause c).ne_empty known clause after hclause
  subquery _ _ := List.forall_mem_nil _
  forEach item list known texts after htexts _ _ :=
    (Resolve.Reads.heading item list).ne_empty known texts after htexts
  union _ _ _ := List.forall_mem_nil _

end Draft

/-! ## Variables without a text -/

namespace Scope

variable {scope : Scope} {identifier : Identifier}

/-- The identifier stands for a variable that has no text: it has no variable of its own, its text
is empty, or its token or its owner has not been given a text. -/
inductive Textless (scope : Scope) : Identifier → Prop
  | anonymous : Textless scope .anonymous
  | typeValue (descriptor : Descriptor) : Textless scope (.typeValue descriptor)
  | text {identifier : Identifier} (htext : identifier.text? = some "")
      (hnameless : ∀ k ∈ scope.find? (.text ""), (scope.get (.registered k)).reference? = none) :
      Textless scope identifier
  | token (t : Token) (descriptor : Option Descriptor) (hlive : t ∉ scope.retired)
      (hnameless : scope.ownerText? t = none) : Textless scope (.token t descriptor)
  | field (owner : Token) (path : FieldPath) (hlive : owner ∉ scope.retired)
      (hnameless : scope.ownerText? owner = none)
      (hfollows : scope.Follows (.field owner path.field)) : Textless scope (.field owner path)

namespace Textless

theorem resolve_text (htext : identifier.text? = some "")
    (hnameless : ∀ k ∈ scope.find? (.text ""), (scope.get (.registered k)).reference? = none) :
    ∃ resolution later, scope.resolve identifier = .ok (resolution, later) ∧
      (later.get resolution.slot).reference? = none := by
  have hown : identifier.key? = some (.text "") := Identifier.key?_eq_text_iff.mpr htext
  obtain ⟨resolution, later, hresolve⟩ := scope.exists_resolve_text htext
  refine ⟨resolution, later, hresolve, ?_⟩
  cases resolves_of_ok hresolve with
  | apart hkey => cases hkey.symm.trans hown
  | @found key k hkey hfind =>
      cases hkey.symm.trans hown
      have hsame : scope.refreshed identifier k = scope :=
        modifyAt_eq_self fun _ _ => refresh_text (Option.isSome_of_eq_some htext) k
      rw [hsame]
      exact hnameless k hfind
  | introduced hkey hfind =>
      have hbeginning : scope.beginning identifier = { expression := some "" } := by
        cases identifier with
        | name text | raw text =>
            cases htext
            rfl
        | _ => cases htext
      simp [get, hbeginning, Variable.reference?]

theorem resolve_field {owner : Token} {path : FieldPath} (hlive : owner ∉ scope.retired)
    (hnameless : scope.ownerText? owner = none)
    (hfollows : scope.Follows (.field owner path.field)) :
    ∃ resolution later, scope.resolve (.field owner path) = .ok (resolution, later) ∧
      (later.get resolution.slot).reference? = none := by
  have htoken : (Identifier.field owner path).token? = some owner := rfl
  have htext : scope.propertyText? owner path.property = none := by
    rw [propertyText?_eq, hnameless, Option.map_none]
  obtain ⟨resolution, later, hresolve⟩ : ∃ resolution later,
      scope.resolve (.field owner path) = .ok (resolution, later) :=
    ⟨_, _, resolve_of_live htoken hlive⟩
  refine ⟨resolution, later, hresolve, ?_⟩
  cases resolves_of_ok hresolve with
  | apart hkey => cases hkey
  | @found key k hkey hfind =>
      cases hkey
      simp only [get, refreshed, at?_modifyAt, if_true]
      cases hv : scope.at? k with
      | none => rfl
      | some v =>
          obtain ⟨hpinned, hname⟩ := hfollows k hfind
          simp [refresh, hpinned, hname v hv, htext, Variable.reference?]
  | introduced hkey hfind => simp [get, beginning, htext, Variable.reference?]

theorem resolve (h : scope.Textless identifier) :
    ∃ resolution later, scope.resolve identifier = .ok (resolution, later) ∧
      (later.get resolution.slot).reference? = none := by
  cases h with
  | anonymous => exact ⟨_, _, rfl, rfl⟩
  | typeValue descriptor => exact ⟨_, _, rfl, rfl⟩
  | text htext hnameless => exact resolve_text htext hnameless
  | token t descriptor hlive hnameless =>
      obtain ⟨resolution, later, hresolve, hreference⟩ := resolve_token_reference hlive descriptor
      exact ⟨resolution, later, hresolve, hreference.trans hnameless⟩
  | field owner path hlive hnameless hfollows => exact resolve_field hlive hnameless hfollows

/-- The use of such an identifier leads to a variable that cannot be referred to. -/
theorem use (h : scope.Textless identifier) :
    ∃ used later, scope.use { identifier } = (.ok used, later) ∧
      used.found.reference? = none := by
  obtain ⟨resolution, later, hresolve, hreference⟩ := h.resolve
  have hcopies : ¬ Mention.Copies { identifier } := fun hcopies => nomatch hcopies.2.2
  refine ⟨⟨later.get resolution.slot, resolution.created, none⟩, later, ?_, hreference⟩
  have huse : scope.use { identifier } = _ := use_of_resolve hresolve rfl
  rw [huse, slotFor, if_neg hcopies]
  rfl

end Textless

end Scope

/-! ## Calls that fail -/

/-- The sites are resolved up to one that needs a text, and the variable of the mention there has
none. -/
def Lacks (sites : List Site) (known : Vocabulary) (mention : Mention) : Prop :=
  ∃ before after middle, sites = before ++ .text mention :: after ∧
    Resolve.ofSites before known = .ok () middle ∧
      ∃ used later, middle.scope.use mention = (.ok used, later) ∧ used.found.reference? = none

namespace Lacks

variable {sites : List Site} {known : Vocabulary} {mention : Mention}

theorem ofSites (h : Lacks sites known mention) :
    ∃ after, Resolve.ofSites sites known =
      .error (.unresolvedIdentifier mention.identifier.display) after := by
  obtain ⟨before, rest, middle, rfl, hbefore, used, later, hused, hnone⟩ := h
  let left : Vocabulary := { middle.noting mention.identifier with scope := later }
  have hreference : Resolve.reference mention middle =
      .error (.unresolvedIdentifier mention.identifier.display) left := by
    simp only [Resolve.reference, Bind.bind, EStateM.bind, Resolve.use_eq, hused, hnone]
    rfl
  have hsite : Resolve.ofSite (.text mention) middle =
      .error (.unresolvedIdentifier mention.identifier.display) left :=
    Resolve.effect_eq_error_iff.mpr hreference
  refine ⟨left, ?_⟩
  rw [Resolve.ofSites_append, Resolve.bind_of_ok hbefore, Resolve.ofSites_cons,
    Resolve.bind_of_error hsite]

theorem resolving (draft : Draft) (h : Lacks sites draft.known mention) {α : Type}
    {action : Resolve α} (hwalks : Resolve.Walks sites action) :
    ∃ known, draft.resolving action =
      (.error (.unresolvedIdentifier mention.identifier.display), { draft with known }) := by
  obtain ⟨after, herror⟩ := h.ofSites
  rw [← hwalks, Resolve.effect_eq_error_iff] at herror
  exact ⟨after, by simp [Draft.resolving, herror]⟩

end Lacks

namespace Draft

/-- A call that lacks a text appends nothing and leaves a fault with the identifier, unless there
is an earlier one. -/
theorem call_lacks (draft : Draft) {call : Call} {mention : Mention}
    (h : Lacks call.sites draft.known mention) :
    ∃ known, draft.call call = { draft with
      known
      fault := draft.fault <|> some (.unresolvedIdentifier mention.identifier.display) } := by
  obtain ⟨known, hresolving⟩ := h.resolving draft (.clause call)
  exact ⟨known, by rw [Draft.call, hresolving]; rfl⟩

theorem forEach_lacks (draft : Draft) {item list : Identifier}
    (updates : List (Update Identifier)) (hdepth : draft.depthFault? = none) {mention : Mention}
    (h : Lacks [list.site, item.site] draft.known mention) :
    ∃ known, draft.forEach item list updates = { draft with
      known
      fault := draft.fault <|> some (.unresolvedIdentifier mention.identifier.display) } := by
  obtain ⟨known, hresolving⟩ := h.resolving draft (.heading item list)
  have hstep := step_forEach item list updates draft
  simp only [hdepth, hresolving] at hstep
  exact ⟨known, hstep⟩

/-- The operands of a clause are the texts that its call reads, and none of them is empty, in
whatever block it stands. A call that needs the text of a variable without one fails over its first
such identifier, and so does a loop that is not too deep over those of its heading. Among the
identifiers without a text are those that stand for no variable of the scope and those whose token
or owner has none. -/
theorem operands_filled :
    (∀ (call : Call) (known after : Vocabulary) (clause : Clause),
      call.clause known = .ok clause after →
        (readings call.sites known).map (Moment.result? · Resolve.reference) =
          clause.operands.map some) ∧
    (∀ (catalog : Catalog) (settings : Settings) (steps : List Step),
      Everywhere Clause.bodies (fun clause => ∀ operand ∈ clause.operands, operand ≠ "")
        (run steps { catalog, settings }).clauses) ∧
    (∀ (draft : Draft) (call : Call) (mention : Mention),
      Lacks call.sites draft.known mention → ∃ known, draft.call call = { draft with
        known, fault := draft.fault <|> some (.unresolvedIdentifier mention.identifier.display) }) ∧
    (∀ (draft : Draft) (item list : Identifier) (updates : List (Update Identifier))
      (mention : Mention), draft.depthFault? = none →
        Lacks [list.site, item.site] draft.known mention →
          ∃ known, draft.forEach item list updates = { draft with
            known
            fault := draft.fault <|> some (.unresolvedIdentifier mention.identifier.display) }) ∧
    ∀ (scope : Scope) (identifier : Identifier), scope.Textless identifier →
      ∃ used later, scope.use { identifier } = (.ok used, later) ∧
        used.found.reference? = none := by
  refine ⟨fun call known after clause hclause => ?_,
    fun _ _ steps => run_everywhere _ appended_operands steps everywhere_nil,
    fun draft _ _ h => draft.call_lacks h,
    fun draft _ _ updates _ hdepth h => draft.forEach_lacks updates hdepth h,
    fun _ _ h => h.use⟩
  obtain ⟨-, _, rfl, htexts⟩ := Resolve.Reads.clause call known clause after hclause
  exact htexts

/-- Operands of many kinds, some of them inside a loop. -/
def operandSteps : List Step :=
  [.call (.merge {
      start := { identifier := .name "n", properties := .ofList [("id", .parameter "id" .null)] }
      path := some { identifier := .name "p" } }),
    .call (.onMerge .created [.property (.name "n.age") (.raw "1")]),
    .forEach (.name "x") (.raw "[1, 2]") [.delete true [.name "x"]],
    .call (.project .passing false [{ identifier := .name "n", name := some "m" }]),
    .call (.condition (.comparison (.name "m.id") ">" (.raw "0"))),
    .call (.unwind (.raw "[3]") { identifier := .ofToken ⟨2⟩, qualifier := some "y" })]

/-- Sets a property to a token without a text. -/
def nameless : Call := .update (.set [.property (.name "n.age") (.ofToken ⟨1⟩)])

theorem operands_filled_operandSteps :
    ((readings (Call.condition (.comparison (.name "m.id") ">" (.raw "0"))).sites {}).map
      (Moment.result? · Resolve.reference) = [some "m.id", some "0"]) ∧
    (run operandSteps {}).clauses.map Clause.operands = [["p", "$id"], ["n.age", "1"],
        ["[1, 2]", "x"], ["m"], ["m.id", "0"], ["[3]", "y"]] ∧
    Everywhere Clause.bodies (fun clause => ∀ operand ∈ clause.operands, operand ≠ "")
      (run operandSteps {}).clauses ∧
    (∃ known, (run operandSteps {}).call nameless = { run operandSteps {} with
      known, fault := some (.unresolvedIdentifier "#1") }) ∧
    (∃ known, (run operandSteps {}).forEach .anonymous (.raw "[]") [] = { run operandSteps {} with
      known, fault := some (.unresolvedIdentifier "()") }) := by
  obtain ⟨hread, hfilled, hcall, hloop, htextless⟩ := operands_filled
  refine ⟨hread (.condition (.comparison (.name "m.id") ">" (.raw "0"))) {} _ _ rfl, by decide,
    hfilled {} {} operandSteps, ?_, ?_⟩
  · refine hcall (run operandSteps {}) nameless { identifier := .ofToken ⟨1⟩ } ?_
    refine ⟨[(Identifier.name "n.age").site], [], _, rfl, rfl, ?_⟩
    exact htextless _ _ (.token ⟨1⟩ none (by decide) (by decide))
  · refine hloop (run operandSteps {}) .anonymous (.raw "[]") [] { identifier := .anonymous }
      (by decide) ?_
    refine ⟨[(Identifier.raw "[]").site], [], _, rfl, rfl, ?_⟩
    exact htextless _ _ .anonymous

end Draft

end GraphQuery
