import GraphQuery.Proofs.Clause.Layout
import GraphQuery.Proofs.Draft.Filled
import GraphQuery.Proofs.Draft.Uses
import GraphQuery.Proofs.Scope.LineBreaks

/-! # Line breaks

The texts that a program is written with. Every text of its clauses is put together from them, so
where none of those has a line break none of these has. -/

namespace GraphQuery

open Text

/-! ## Texts of programs -/

mutual

/-- The texts of a condition that mention nothing. -/
def Formula.words : Condition → List String
  | .atom _ => []
  | .comparison _ operator _ => [operator]
  | .boolean _ operands => Formula.wordsOfAll operands
  | .raw text => [text]

def Formula.wordsOfAll : List Condition → List String
  | [] => []
  | operand :: rest => Formula.words operand ++ Formula.wordsOfAll rest

end

def Call.words : Call → List String
  | .use text | .call text | .showCommand text => [text]
  | .condition formula => formula.words
  | other => other.labelLists.flatten

/-- The texts of a call. A piece of query text is none of them, since its lines are taken apart. -/
def Call.texts (call : Call) : List String :=
  call.sites.flatMap (fun site => site.mention.texts) ++ call.words

mutual

def Step.texts : Step → List String
  | .token | .entity _ => []
  | .call c => c.texts
  | .subquery body => Step.textsOfAll body
  | .forEach item list updates =>
      item.texts ++ list.texts ++ updates.flatMap fun change => (Call.update change).texts
  | .union _ branches => Step.textsOfBranches branches

def Step.textsOfAll : List Step → List String
  | [] => []
  | first :: rest => first.texts ++ Step.textsOfAll rest

def Step.textsOfBranches : List (List Step) → List String
  | [] => []
  | branch :: rest => Step.textsOfAll branch ++ Step.textsOfBranches rest

end

/-! ## Calls -/

theorem Identifier.Clear.site {identifier : Identifier} (h : identifier.Clear) :
    identifier.site.mention.Clear := by
  have hempty : (∅ : OrderedMap String Identifier).entries = [] := rfl
  simpa [Mention.Clear, Mention.texts, Identifier.site, Site.mention, hempty, Identifier.Clear]
    using h

theorem Element.forall_mem_texts {P : String → Prop} {element : Element} :
    (∀ text ∈ element.texts, P text) ↔
      (∀ text ∈ element.reference, P text) ∧ (∀ text ∈ element.label, P text) ∧
        (∀ text ∈ element.length, P text) ∧
        (∀ entry ∈ element.properties.entries, P entry.1 ∧ P entry.2) ∧
        ∀ text ∈ element.propertiesText, P text := by
  simp only [Element.texts, List.forall_mem_append, List.forall_mem_flatMap, List.forall_mem_cons,
    List.not_mem_nil, IsEmpty.forall_iff, implies_true, and_true, Option.mem_toList,
    Option.mem_def, and_assoc]

namespace Resolve

variable {α β : Type} {P : α → Prop} {Q : β → Prop}

/-- Where the variables have no line breaks, the action keeps it so, and what it results in has the
property. -/
def Writes (P : α → Prop) (action : Resolve α) : Prop :=
  ∀ known result after, known.scope.Clear → action known = .ok result after →
    after.scope.Clear ∧ P result

namespace Writes

theorem pure {result : α} (h : P result) : Writes P (Pure.pure result) := by
  intro known result' after hclear hresult
  cases hresult
  exact ⟨hclear, h⟩

theorem bind {first : Resolve α} {rest : α → Resolve β} (hfirst : Writes P first)
    (hrest : ∀ result, P result → Writes Q (rest result)) : Writes Q (first >>= rest) := by
  intro known result after hclear h
  obtain ⟨value, middle, hmiddle, hresult⟩ := bind_ok h
  obtain ⟨hkept, hvalue⟩ := hfirst known value middle hclear hmiddle
  exact hrest value hvalue middle result after hkept hresult

theorem map {action : Resolve α} {make : α → β} (h : Writes P action)
    (hmake : ∀ result, P result → Q (make result)) :
    Writes Q (action >>= fun result => Pure.pure (make result)) :=
  h.bind fun result hresult => .pure (hmake result hresult)

theorem mapM {γ : Type} {f : γ → Resolve α} {items : List γ}
    (h : ∀ item ∈ items, Writes P (f item)) :
    Writes (fun results => ∀ result ∈ results, P result) (items.mapM f) := by
  induction items with
  | nil => exact .pure (List.forall_mem_nil _)
  | cons item rest ih =>
      obtain ⟨hitem, hrest⟩ := List.forall_mem_cons.mp h
      rw [List.mapM_cons]
      refine hitem.bind fun result hresult => (ih hrest).map fun results hresults => ?_
      exact List.forall_mem_cons.mpr ⟨hresult, hresults⟩

/-! ### Mentions -/

theorem used {mention : Mention} (h : mention.Clear) : Writes Use.Clear (use mention) := by
  intro known result after hclear hresult
  rw [use_eq] at hresult
  rcases huse : known.scope.use mention with ⟨fault | found, later⟩ <;> rw [huse] at hresult <;>
    cases hresult
  exact hclear.use h huse

theorem reference {mention : Mention} (h : mention.Clear) :
    Writes Unbroken (reference mention) := by
  refine (used h).bind fun used hused => ?_
  cases hreference : used.found.reference? with
  | none => exact fun _ _ _ _ hfail => nomatch hfail
  | some text => exact .pure (hused.found.reference? text hreference)

theorem value {identifier : Identifier} (h : identifier.site.mention.Clear) :
    Writes Unbroken (value identifier) :=
  reference h

theorem column {mention : Mention} (h : mention.Clear) :
    Writes (fun column => Unbroken column.text) (column mention) := by
  refine (used h).bind fun used hused => ?_
  cases hreference : used.found.reference? with
  | none => exact fun _ _ _ _ hfail => nomatch hfail
  | some name => exact .pure (hused.columnText (hused.found.reference? name hreference))

theorem sortKey {key : SortKey Identifier} (h : key.operand.site.mention.Clear) :
    Writes (fun key => Unbroken key.operand) (sortKey key) :=
  (value h).map fun _ hoperand => hoperand

/-! ### Patterns -/

theorem element {mention : Mention} (h : ∀ site ∈ mention.sites, site.mention.Clear) :
    Writes (fun element => ∀ text ∈ element.texts, Unbroken text) (element mention) := by
  obtain ⟨hmention, hvalues⟩ := List.forall_mem_cons.mp h
  have hmention : mention.Clear := hmention
  have hentries : ∀ entry ∈ mention.properties.entries,
      Writes (fun entry => Unbroken entry.1 ∧ Unbroken entry.2) (property entry) :=
    fun entry hentry => (value (List.forall_mem_map.mp hvalues entry hentry)).map
      fun _ htext => ⟨hmention.key hentry, htext⟩
  refine (used hmention).bind fun used hused => (mapM hentries).map fun properties hproperties => ?_
  refine Element.forall_mem_texts.mpr ⟨hused.found.reference?, fun text htext => ?_,
    hmention.length, fun entry hentry => ?_, hmention.propertiesText⟩
  · rcases hgiven : mention.label with _ | label
    · simp only [hgiven, Option.orElse_eq_orElse] at htext
      split at htext
      · exact hused.found.label text htext
      · cases htext
    · exact hmention.label text (by simpa [hgiven] using htext)
  · exact hproperties entry ((OrderedMap.gathers_ofList properties).mem hentry)

theorem link {hop : Hop} (h : ∀ site ∈ hop.sites, site.mention.Clear) :
    Writes (fun link => ∀ text ∈ link.texts, Unbroken text) (link hop) := by
  obtain ⟨hrelationship, hnode⟩ := List.forall_mem_append.mp h
  exact (element hrelationship).bind fun _ htexts => (element hnode).map fun _ hmore =>
    List.forall_mem_append.mpr ⟨htexts, hmore⟩

theorem chain {pattern : Pattern} (h : ∀ site ∈ pattern.sites, site.mention.Clear) :
    Writes (fun chain => ∀ text ∈ chain.texts, Unbroken text) (chain pattern) := by
  obtain ⟨hpath, h⟩ := List.forall_mem_append.mp h
  obtain ⟨hstart, hhops⟩ := List.forall_mem_append.mp h
  have hresolved : Writes (fun path : Option String => ∀ text ∈ path.toList, Unbroken text)
      (pattern.path.mapM Resolve.reference) := by
    cases hgiven : pattern.path with
    | none => exact .pure (List.forall_mem_nil _)
    | some mention =>
        have hmention : mention.Clear := hpath (.text mention) (by simp [hgiven])
        exact (reference hmention).map fun text htext => List.forall_mem_singleton.mpr htext
  have hlinks : ∀ hop ∈ pattern.hops, Writes (fun link => ∀ text ∈ link.texts, Unbroken text)
      (Resolve.link hop) := fun hop hhop =>
    link fun site hsite => hhops site (List.mem_flatMap.mpr ⟨hop, hhop, hsite⟩)
  refine hresolved.bind fun path hpath => (element hstart).bind fun start hstart =>
    (mapM hlinks).map fun links hlinks => ?_
  refine List.forall_mem_append.mpr ⟨List.forall_mem_append.mpr ⟨hpath, hstart⟩, ?_⟩
  exact List.forall_mem_flatMap.mpr hlinks

/-! ### Updates and conditions -/

theorem pair {left right : Identifier} (hleft : left.site.mention.Clear)
    (hright : right.site.mention.Clear) {make : String → String → α}
    (hmake : ∀ first second, Unbroken first → Unbroken second → P (make first second)) :
    Writes P (do
      let first ← Resolve.value left
      let second ← Resolve.value right
      return make first second) :=
  (value hleft).bind fun first hfirst => (value hright).map fun second hsecond =>
    hmake first second hfirst hsecond

theorem assignment {item : Assignment Identifier} (h : ∀ site ∈ item.sites, site.mention.Clear)
    (hlabels : ∀ names ∈ item.labelLists, ∀ text ∈ names, Unbroken text) :
    Writes (fun item => ∀ text ∈ item.texts, Unbroken text) (item.mapM Resolve.value) := by
  have hboth : ∀ first second : String, Unbroken first → Unbroken second →
      ∀ text ∈ [first, second], Unbroken text := fun _ _ hfirst hsecond =>
    List.forall_mem_cons.mpr ⟨hfirst, List.forall_mem_singleton.mpr hsecond⟩
  cases item with
  | labels target names =>
      have hnames : ∀ text ∈ names, Unbroken text := hlabels names (.head _)
      exact (value (h _ (.head _))).map fun _ htarget =>
        List.forall_mem_cons.mpr ⟨htarget, hnames⟩
  | property target other | merge target other | replace target other =>
      exact pair (h _ (.head _)) (h _ (.tail _ (.head _))) hboth

theorem removal {item : Removal Identifier} (h : ∀ site ∈ item.sites, site.mention.Clear)
    (hlabels : ∀ names ∈ item.labelLists, ∀ text ∈ names, Unbroken text) :
    Writes (fun item => ∀ text ∈ item.texts, Unbroken text) (item.mapM Resolve.value) := by
  cases item with
  | labels target names =>
      have hnames : ∀ text ∈ names, Unbroken text := hlabels names (.head _)
      exact (value (h _ (.head _))).map fun _ htarget =>
        List.forall_mem_cons.mpr ⟨htarget, hnames⟩
  | property target =>
      exact (value (h _ (.head _))).map fun _ htarget => List.forall_mem_singleton.mpr htarget

theorem items {γ δ : Type} {f : γ → Resolve δ} {sites : γ → List Site}
    {labels : γ → List (List String)} {texts : δ → List String}
    (hitem : ∀ item, (∀ site ∈ sites item, site.mention.Clear) →
      (∀ names ∈ labels item, ∀ text ∈ names, Unbroken text) →
        Writes (fun result => ∀ text ∈ texts result, Unbroken text) (f item))
    {list : List γ} (h : ∀ site ∈ list.flatMap sites, site.mention.Clear)
    (hlabels : ∀ names ∈ list.flatMap labels, ∀ text ∈ names, Unbroken text) :
    Writes (fun results => ∀ text ∈ results.flatMap texts, Unbroken text) (list.mapM f) := by
  simp only [List.forall_mem_flatMap] at *
  exact mapM fun item hmem => hitem item (h item hmem) (hlabels item hmem)

theorem update {change : Update Identifier} (h : ∀ site ∈ change.sites, site.mention.Clear)
    (hlabels : ∀ names ∈ change.labelLists, ∀ text ∈ names, Unbroken text) :
    Writes (fun change => ∀ text ∈ change.texts, Unbroken text) (change.mapM Resolve.value) := by
  cases change with
  | set list => exact (items (fun _ => assignment) h hlabels).map fun _ => id
  | remove list => exact (items (fun _ => removal) h hlabels).map fun _ => id
  | delete detach targets =>
      have htargets := List.forall_mem_map.mp h
      exact (mapM fun target htarget => value (htargets target htarget)).map fun _ => id

mutual

theorem formula : ∀ formula : Condition, (∀ site ∈ formula.sites, site.mention.Clear) →
    (∀ text ∈ formula.words, Unbroken text) →
      Writes (fun formula => ∀ text ∈ Formula.texts formula, Unbroken text)
        (formula.mapM Resolve.value)
  | .atom operand, h, _ =>
      (value (h _ (.head _))).map fun _ htext => List.forall_mem_singleton.mpr htext
  | .comparison left operator right, h, hwords =>
      pair (h _ (.head _)) (h _ (.tail _ (.head _))) fun first second hfirst hsecond => by
        simp [Formula.texts, hfirst, hsecond, hwords operator (.head _)]
  | .boolean _ operands, h, hwords => (formulas operands h hwords).map fun _ => id
  | .raw text, _, hwords => .pure hwords

theorem formulas : ∀ operands : List Condition,
    (∀ site ∈ Formula.sitesOfAll operands, site.mention.Clear) →
    (∀ text ∈ Formula.wordsOfAll operands, Unbroken text) →
      Writes (fun operands => ∀ text ∈ Formula.textsOfAll operands, Unbroken text)
        (Formula.mapOperandsM Resolve.value operands)
  | [], _, _ => .pure (List.forall_mem_nil _)
  | operand :: rest, h, hwords => by
      obtain ⟨hoperand, hrest⟩ := List.forall_mem_append.mp h
      obtain ⟨hword, hwords⟩ := List.forall_mem_append.mp hwords
      exact (formula operand hoperand hword).bind fun _ htexts =>
        (formulas rest hrest hwords).map fun _ hmore =>
          List.forall_mem_append.mpr ⟨htexts, hmore⟩

end

/-! ### Clauses -/

/-- A call without line breaks makes a clause without any. -/
theorem clause {call : Call} (h : ∀ text ∈ call.texts, Unbroken text) :
    Writes (fun clause => ∀ text ∈ clause.texts, Unbroken text) call.clause := by
  obtain ⟨hsites, hwords⟩ := List.forall_mem_append.mp h
  have hsites : ∀ site ∈ call.sites, site.mention.Clear := List.forall_mem_flatMap.mp hsites
  cases call with
  | use text | call text | showCommand text => exact .pure hwords
  | rawText text => exact .pure (List.forall_mem_nil _)
  | pattern verb patterns =>
      have hpatterns := List.forall_mem_flatMap.mp hsites
      exact (mapM fun pattern hpattern => chain (hpatterns pattern hpattern)).map fun _ hchains =>
        List.forall_mem_flatMap.mpr hchains
  | merge walk => exact (chain hsites).map fun _ => id
  | onMerge outcome list =>
      exact (items (fun _ => assignment) hsites (List.forall_mem_flatten.mp hwords)).map fun _ => id
  | condition condition => exact (formula condition hsites hwords).map fun _ => id
  | project verb distinct mentions =>
      have hmentions := List.forall_mem_map.mp hsites
      exact (mapM fun mention hmention => column (hmentions mention hmention)).map
        fun _ hcolumns => List.forall_mem_map.mpr hcolumns
  | yielding mentions =>
      have hmentions := List.forall_mem_map.mp hsites
      exact (mapM fun mention hmention => column (hmentions mention hmention)).map
        fun _ hcolumns => List.forall_mem_map.mpr hcolumns
  | orderBy keys =>
      have hkeys := List.forall_mem_map.mp hsites
      exact (mapM fun key hkey => sortKey (hkeys key hkey)).map
        fun _ hoperands => List.forall_mem_map.mpr hoperands
  | skip count | limit count =>
      exact (value (hsites _ (.head _))).map fun _ htext => List.forall_mem_singleton.mpr htext
  | update change =>
      exact (update hsites (List.forall_mem_flatten.mp hwords)).map fun _ => id
  | unwind list item =>
      have hitem : item.Clear := hsites (.text item) (.tail _ (.head _))
      exact (value (hsites _ (.head _))).bind fun _ hlist => (reference hitem).map fun _ htext =>
        List.forall_mem_cons.mpr ⟨hlist, List.forall_mem_singleton.mpr htext⟩

theorem heading {item list : Identifier} (hitem : item.Clear) (hlist : list.Clear) :
    Writes (fun texts => Unbroken texts.1 ∧ Unbroken texts.2) (Draft.heading item list) :=
  pair hlist.site hitem.site fun _ _ hfirst hsecond => ⟨hsecond, hfirst⟩

end Writes

end Resolve

/-! ## Runs -/

theorem Clause.textsOfAll_append (clauses others : List Clause) :
    Clause.textsOfAll (clauses ++ others) =
      Clause.textsOfAll clauses ++ Clause.textsOfAll others := by
  induction clauses with
  | nil => rfl
  | cons clause rest ih => simp [Clause.textsOfAll, ih]

theorem Step.textsOfAll_ofUpdates (updates : List (Update Identifier)) :
    Step.textsOfAll (Step.ofUpdates updates) =
      updates.flatMap fun change => (Call.update change).texts := by
  induction updates with
  | nil => rfl
  | cons change rest ih => exact congrArg ((Call.update change).texts ++ ·) ih

namespace Draft

variable {draft : Draft}

/-- Nothing that is written or known in the draft has a line break. -/
structure Clear (draft : Draft) : Prop where
  scope : draft.known.scope.Clear
  clauses : ∀ text ∈ Clause.textsOfAll draft.clauses, Unbroken text

theorem Clear.push (h : draft.Clear) {clause : Clause} (hcalm : faults (pushEvents clause) = [])
    (hclause : ∀ text ∈ clause.texts, Unbroken text) : (draft.push clause).Clear where
  scope := by
    rw [push_known]
    exact h.scope
  clauses := by
    rw [push_calm hcalm, Clause.textsOfAll_append]
    exact List.forall_mem_append.mpr ⟨h.clauses, by simpa [Clause.textsOfAll] using hclause⟩

/-- Where nothing fails, a step without line breaks brings none into the draft. -/
def KeepsClear (s : Step) : Prop :=
  ∀ draft : Draft, faults (stepEvents s draft) = [] → (∀ text ∈ s.texts, Unbroken text) →
    draft.Clear → (step s draft).Clear

theorem keepsClear_call (c : Call) : KeepsClear (.call c) := by
  intro draft hcalm htexts h
  obtain ⟨clause, known, hclause, hpush, hcall⟩ := call_calm hcalm
  obtain ⟨hscope, hwritten⟩ := Resolve.Writes.clause htexts _ _ _ h.scope hclause
  have hresolved : Clear { draft with known } := ⟨hscope, h.clauses⟩
  rw [step, hcall]
  exact hresolved.push hpush hwritten

theorem run_clear_of_keeps {steps : List Step} (hsteps : ∀ s ∈ steps, KeepsClear s)
    (hcalm : failures steps draft = []) (htexts : ∀ text ∈ Step.textsOfAll steps, Unbroken text)
    (h : draft.Clear) : (run steps draft).Clear := by
  induction steps generalizing draft with
  | nil => exact h
  | cons first rest ih =>
      obtain ⟨hfirst, hrest⟩ := List.forall_mem_cons.mp hsteps
      obtain ⟨hhead, htail⟩ := faults_append_eq_nil_iff.mp hcalm
      obtain ⟨htext, hmore⟩ := List.forall_mem_append.mp htexts
      exact ih hrest htail hmore (hfirst draft hhead htext h)

theorem inner_clear (draft : Draft) {scope : Scope} (h : scope.Clear) :
    (draft.inner scope).Clear :=
  ⟨h, List.forall_mem_nil _⟩

theorem runBranches_clear {branches : List (List Step)}
    (hbranches : ∀ branch ∈ branches, ∀ s ∈ branch, KeepsClear s)
    (hcalm : faults (branchEvents branches draft) = [])
    (htexts : ∀ text ∈ Step.textsOfBranches branches, Unbroken text) :
    ∀ text ∈ Clause.textsOfBranches (runBranches branches draft).2, Unbroken text := by
  induction branches generalizing draft with
  | nil => exact List.forall_mem_nil _
  | cons branch rest ih =>
      obtain ⟨hbranch, hrest⟩ := List.forall_mem_cons.mp hbranches
      obtain ⟨hhead, htail⟩ := faults_append_eq_nil_iff.mp hcalm
      obtain ⟨htext, hmore⟩ := List.forall_mem_append.mp htexts
      have hinside := run_clear_of_keeps hbranch hhead htext (draft.inner_clear Scope.clear_empty)
      exact List.forall_mem_append.mpr ⟨hinside.clauses, ih hrest htail hmore⟩

theorem keepsClear (s : Step) : KeepsClear s := by
  induction s with
  | token => exact fun draft _ _ h => ⟨h.scope, h.clauses⟩
  | entity typeName =>
      intro draft _ _ h
      simp only [step, issue, entity]
      cases draft.catalog.describe typeName <;> exact ⟨h.scope, h.clauses⟩
  | call c => exact keepsClear_call c
  | subquery body ihbody =>
      intro draft hcalm htexts h
      obtain ⟨hdepth, hbody, hpush⟩ := subquery_calm hcalm
      have hinside := run_clear_of_keeps ihbody hbody htexts (draft.inner_clear h.scope)
      have houter : (draft.absorbScope (run body (draft.inner draft.known.scope))).Clear :=
        ⟨hinside.scope, h.clauses⟩
      rw [step_subquery, hdepth]
      exact houter.push hpush hinside.clauses
  | forEach item list updates =>
      intro draft hcalm htexts h
      obtain ⟨hdepth, texts, known, hresolved, hheading, hupdates, hpush⟩ := forEach_calm hcalm
      obtain ⟨htexts, hchanges⟩ := List.forall_mem_append.mp htexts
      obtain ⟨hitem, hlist⟩ := List.forall_mem_append.mp htexts
      obtain ⟨hscope, hfirst, hsecond⟩ :=
        Resolve.Writes.heading hitem hlist _ _ _ h.scope hresolved
      rw [← Step.textsOfAll_ofUpdates] at hchanges
      rw [← events_ofUpdates] at hupdates
      have hinside := run_clear_of_keeps (Step.forall_mem_ofUpdates keepsClear_call updates)
        hupdates hchanges ({ draft with known }.inner_clear hscope)
      have houter : ({ draft with known }.absorbScope
          (run (Step.ofUpdates updates) ({ draft with known }.inner known.scope))).Clear :=
        ⟨hinside.scope, h.clauses⟩
      simp only [step_forEach, hdepth, hheading]
      refine houter.push hpush ?_
      exact List.forall_mem_cons.mpr
        ⟨hfirst, List.forall_mem_cons.mpr ⟨hsecond, hinside.clauses⟩⟩
  | union mode branches ihbranches =>
      intro draft hcalm htexts h
      obtain ⟨hdepth, hbranches, hpush⟩ := union_calm hcalm
      have hinside := runBranches_clear ihbranches hbranches htexts
      have houter : (runBranches branches draft).1.Clear := by
        refine ⟨?_, ?_⟩
        · rw [runBranches_scope]
          exact h.scope
        · rw [runBranches_clauses]
          exact h.clauses
      rw [step_union, hdepth]
      exact houter.push hpush hinside

/-- Where a program compiles, its clauses have no line break that its texts do not have. -/
theorem unbroken_run {catalog : Catalog} {settings : Settings} {steps : List Step}
    (hfault : (run steps { catalog, settings }).fault = none)
    (htexts : ∀ text ∈ Step.textsOfAll steps, Unbroken text) :
    ∀ text ∈ Clause.textsOfAll (run steps { catalog, settings }).clauses, Unbroken text := by
  have hcalm : failures steps { catalog, settings } = [] := (run_fault_eq_none_iff rfl).mp hfault
  exact (run_clear_of_keeps (fun s _ => keepsClear s) hcalm htexts
    ⟨Scope.clear_empty, List.forall_mem_nil _⟩).clauses

end Draft

end GraphQuery
