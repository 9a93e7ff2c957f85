import GraphQuery.Proofs.Draft.Events
import GraphQuery.Proofs.Draft.Uses

/-! # Named tokens

The fault of each use that fails is one of the failures of the run, so that in a program that
compiles all uses succeed. There a token that is used in a pattern prints the name of its variable,
provided that it was given one. A token that never was is let through in a pattern, where it prints
nothing. -/

namespace GraphQuery

/-! ## Uses that succeed and uses that fail -/

/-- The use comes to its end. -/
def Moment.Succeeds (moment : Moment) : Prop :=
  ∃ used later, moment.known.scope.use moment.mention = (.ok used, later)

def Moment.Fails (moment : Moment) (fault : Fault) : Prop :=
  ∃ later, moment.known.scope.use moment.mention = (.error fault, later)

theorem Moment.succeeds_of_not_fails {moment : Moment} (h : ∀ fault, ¬ moment.Fails fault) :
    moment.Succeeds := by
  rcases hused : moment.known.scope.use moment.mention with ⟨fault | used, later⟩
  · exact absurd ⟨later, hused⟩ (h fault)
  · exact ⟨used, later, hused⟩

namespace Resolve

theorem effect_eq_error_iff {α : Type} {action : Resolve α} {known after : Vocabulary}
    {fault : Fault} : effect action known = .error fault after ↔
      action known = .error fault after := by
  cases haction : action known with
  | ok result middle =>
      rw [effect_ok haction]
      constructor <;> intro h <;> cases h
  | error other middle =>
      rw [effect, bind_of_error haction]
      constructor <;> intro h <;> cases h <;> rfl

theorem ofSite_error {site : Site} {known : Vocabulary} {fault : Fault}
    (h : Moment.Fails ⟨site.mention, known⟩ fault) :
    ∃ after, ofSite site known = .error fault after := by
  obtain ⟨later, hused : known.scope.use site.mention = _⟩ := h
  obtain ⟨after, huse⟩ : ∃ after, use site.mention known = .error fault after := by
    rw [use_eq, hused]
    exact ⟨_, rfl⟩
  refine ⟨after, ?_⟩
  cases site with
  | text mention => exact effect_eq_error_iff.mpr (bind_of_error huse)
  | element mention => exact effect_eq_error_iff.mpr huse

/-- Sites that are resolved in turn end with the fault of a use among them that fails. -/
theorem ofSites_error {sites : List Site} {known : Vocabulary} {moment : Moment}
    (hmoment : moment ∈ moments sites known) {fault : Fault} (hfails : moment.Fails fault) :
    ∃ after, ofSites sites known = .error fault after := by
  induction sites generalizing known with
  | nil => cases hmoment
  | cons first rest ih =>
      rw [ofSites_cons]
      rw [moments, List.mem_cons] at hmoment
      rcases hmoment with rfl | hmoment
      · obtain ⟨after, hfirst⟩ := ofSite_error hfails
        exact ⟨after, bind_of_error hfirst⟩
      · cases hfirst : ofSite first known with
        | error other middle => simp [hfirst] at hmoment
        | ok _ middle =>
            rw [hfirst] at hmoment
            obtain ⟨after, hrest⟩ := ih hmoment
            exact ⟨after, (bind_of_ok hfirst).trans hrest⟩

theorem Walks.error {α : Type} {sites : List Site} {action : Resolve α}
    (hwalks : Walks sites action) {known : Vocabulary} {moment : Moment}
    (hmoment : moment ∈ moments sites known) {fault : Fault} (hfails : moment.Fails fault) :
    ∃ after, action known = .error fault after := by
  obtain ⟨after, herror⟩ := ofSites_error hmoment hfails
  rw [← hwalks, effect_eq_error_iff] at herror
  exact ⟨after, herror⟩

end Resolve

namespace Draft

theorem mem_faults_append {before after : List Event} {fault : Fault} :
    fault ∈ faults (before ++ after) ↔ fault ∈ faults before ∨ fault ∈ faults after := by
  rw [faults_append, List.mem_append]

/-- Where a use of the step fails, its fault is among the events. -/
def Reports (s : Step) : Prop :=
  ∀ (draft : Draft) (moment : Moment) (fault : Fault), moment ∈ stepUses s draft →
    moment.Fails fault → fault ∈ faults (stepEvents s draft)

section

variable {draft : Draft} {moment : Moment} {fault : Fault}

theorem resolving_of_fails {α : Type} {sites : List Site} {action : Resolve α}
    (hwalks : Resolve.Walks sites action) (hmoment : moment ∈ moments sites draft.known)
    (hfails : moment.Fails fault) : ∃ after, draft.resolving action = (.error fault, after) := by
  obtain ⟨known, herror⟩ := hwalks.error hmoment hfails
  exact ⟨{ draft with known }, by simp [resolving, herror]⟩

theorem reports_call (c : Call) : Reports (.call c) := by
  intro draft moment fault hmoment hfails
  obtain ⟨after, hresolving⟩ := resolving_of_fails (.clause c) hmoment hfails
  simp [stepEvents, callEvents, hresolving, faults, Event.fault?]

theorem reports_run {steps : List Step} (hsteps : ∀ s ∈ steps, Reports s)
    (hmoment : moment ∈ uses steps draft) (hfails : moment.Fails fault) :
    fault ∈ failures steps draft := by
  induction steps generalizing draft with
  | nil => cases hmoment
  | cons first rest ih =>
      obtain ⟨hfirst, hrest⟩ := List.forall_mem_cons.mp hsteps
      rw [failures, events, mem_faults_append]
      rw [uses, List.mem_append] at hmoment
      exact hmoment.imp (hfirst draft moment fault · hfails) (ih hrest ·)

theorem reports_branches {branches : List (List Step)}
    (hbranches : ∀ branch ∈ branches, ∀ s ∈ branch, Reports s)
    (hmoment : moment ∈ branchUses branches draft) (hfails : moment.Fails fault) :
    fault ∈ faults (branchEvents branches draft) := by
  induction branches generalizing draft with
  | nil => cases hmoment
  | cons branch rest ih =>
      obtain ⟨hbranch, hrest⟩ := List.forall_mem_cons.mp hbranches
      rw [branchEvents, mem_faults_append]
      rw [branchUses, List.mem_append] at hmoment
      exact hmoment.imp (reports_run hbranch · hfails) (ih hrest ·)

theorem reports (s : Step) : Reports s := by
  induction s with
  | token | entity typeName => exact fun draft moment fault hmoment => nomatch hmoment
  | call c => exact reports_call c
  | subquery body ihbody =>
      intro draft moment fault hmoment hfails
      rw [stepUses] at hmoment
      rw [stepEvents]
      cases hdepth : draft.depthFault? with
      | some depthFault => simp [hdepth] at hmoment
      | none =>
          rw [hdepth] at hmoment
          exact mem_faults_append.mpr (.inl (reports_run ihbody hmoment hfails))
  | forEach item list updates =>
      intro draft moment fault hmoment hfails
      rw [stepUses] at hmoment
      rw [stepEvents]
      cases hdepth : draft.depthFault? with
      | some depthFault => simp [hdepth] at hmoment
      | none =>
          simp only [hdepth, List.mem_append] at hmoment ⊢
          rcases hmoment with hheading | hupdates
          · obtain ⟨after, hresolving⟩ := resolving_of_fails (.heading item list) hheading hfails
            simp [hresolving, faults, Event.fault?]
          · rcases hresult : draft.resolving (heading item list) with ⟨other | ⟨item, list⟩, after⟩
            · simp [hresult] at hupdates
            · simp only [hresult, ← uses_ofUpdates] at hupdates
              have hfault := reports_run (Step.forall_mem_ofUpdates reports_call updates) hupdates
                hfails
              rw [failures, events_ofUpdates] at hfault
              exact mem_faults_append.mpr (.inl hfault)
  | union mode branches ihbranches =>
      intro draft moment fault hmoment hfails
      rw [stepUses] at hmoment
      rw [stepEvents]
      cases hdepth : draft.depthFault? with
      | some depthFault => simp [hdepth] at hmoment
      | none =>
          rw [hdepth] at hmoment
          exact mem_faults_append.mpr (.inl (reports_branches ihbranches hmoment hfails))

/-- The fault of a use that fails is one of the failures of the run. -/
theorem fault_mem_failures {steps : List Step} (hmoment : moment ∈ uses steps draft)
    (hfails : moment.Fails fault) : fault ∈ failures steps draft :=
  reports_run (fun s _ => reports s) hmoment hfails

/-- All uses of a program that compiles succeed. -/
theorem uses_succeed {steps : List Step} {query : Query} (hfresh : draft.fault = none)
    (h : (run steps draft).compile = .ok query) :
    ∀ moment ∈ uses steps draft, moment.Succeeds := by
  intro moment hmoment
  have hnone : failures steps draft = [] :=
    (run_fault_eq_none_iff hfresh).mp (compile_eq_ok_iff.mp h).1
  refine Moment.succeeds_of_not_fails fun fault hfails => ?_
  have hmem := fault_mem_failures hmoment hfails
  simp [hnone] at hmem

end

end Draft

/-! ## Names -/

namespace Scope

variable (scope : Scope) (mention : Mention)

/-- The text that refers to the variable of the mention once that is used. -/
def textOf? : Option String :=
  match (scope.use mention).1 with
  | .ok used => used.found.reference?
  | .error _ => none

end Scope

/-- The mention leads to the variable of the token, or binds the token to its own. -/
def Mention.Concerns (mention : Mention) (scope : Scope) (t : Token) : Prop :=
  mention.bind = some t ∨
    ¬ mention.Copies ∧ ∃ key ∈ mention.identifier.key?, scope.Share key (.token t)

instance (mention : Mention) (scope : Scope) (t : Token) :
    Decidable (mention.Concerns scope t) := inferInstanceAs (Decidable (_ ∨ _ ∧ _))

/-- The mention leaves the token with a variable that has no text to refer to it by: it is the
first of the token and says no text, or says an empty one, or it is of another identifier whose
variable has none. -/
def Mention.LeavesNameless (mention : Mention) (scope : Scope) (t : Token) : Prop :=
  if mention.identifier.key? = some (.token t) then
    mention.qualification? = none ∧ scope.find? (.token t) = none ∨
      ∃ asked ∈ mention.qualification?, asked.1 = "" ∨ asked.2 = some ""
  else mention.Concerns scope t ∧ scope.textOf? mention = none

instance (mention : Mention) (scope : Scope) (t : Token) :
    Decidable (mention.LeavesNameless scope t) :=
  inferInstanceAs (Decidable (if mention.identifier.key? = some (.token t) then _ ∧ _ ∨ _
    else _ ∧ _))

theorem Mention.not_copies_of_token {mention : Mention} {t : Token}
    (hkey : mention.identifier.key? = some (.token t)) : ¬ mention.Copies := by
  obtain ⟨descriptor, hidentifier⟩ := Identifier.eq_token_of_key? hkey
  rintro ⟨htext, -⟩
  simp [hidentifier, Identifier.text?] at htext

namespace Scope

variable {scope changed later : Scope} {mention : Mention} {used : Use} {slot slot' : Slot}
  {t : Token} {v : Variable}

/-- The variable that the token leads to, if any, has a text to refer to it by. -/
def Named (scope : Scope) (t : Token) : Prop :=
  scope.Has (.token t) fun v => v.reference?.isSome = true

theorem name_ne_empty (h : v.reference?.isSome = true) : v.name ≠ some "" := by
  intro hname
  simp [Variable.reference?, hname] at h

/-- What a bind makes of a variable that has a place. -/
theorem bindBy_registered {k : Nat} (hv : changed.at? k = some v)
    (h : changed.bindBy mention (.registered k) = .ok (slot', later)) :
    slot' = .registered k ∧ (later.get slot').reference? = v.reference? := by
  rcases bindBy_cases h with ⟨-, rfl, rfl⟩ | ⟨token, -, hrebinds⟩
  · exact ⟨rfl, by simp [get, hv]⟩
  · have hplace : slot' = .registered k := hrebinds.place
    have hat : later.at? k = some { v with destination := some token } :=
      (hrebinds.at? k).trans ((if_pos rfl).trans (Option.map_eq_some_iff.mpr ⟨v, hv, rfl⟩))
    subst hplace
    exact ⟨rfl, by simp [get, hat, Variable.reference?]⟩

/-- A variable without an empty alias is named by texts that are not empty. -/
theorem qualify_named {identifier : Identifier} {text : String} {name : Option String} {k : Nat}
    {qualified : Qualified} (hv : scope.at? k = some v) (halias : v.name ≠ some "")
    (htext : text ≠ "") (hname : name ≠ some "")
    (h : scope.qualify (.registered k) identifier text name = .ok (qualified, slot', changed)) :
    slot' = .registered k ∧ ∃ v', changed.at? k = some v' ∧ v'.reference?.isSome = true := by
  have hslot : slot' = .registered k := by
    cases qualifies_of_ok h <;> rfl
  rcases qualify_registered hv h with ⟨-, -, hat⟩ | ⟨-, -, hat⟩
  · exact ⟨hslot, _, hat, by simp [Variable.reference?, htext]⟩
  · refine ⟨hslot, _, hat, ?_⟩
    cases hgiven : name with
    | some given =>
        rw [hgiven, ne_eq, Option.some.injEq] at hname
        simp [Variable.reference?, hname]
    | none =>
        cases hkept : v.name with
        | some kept =>
            rw [hkept, ne_eq, Option.some.injEq] at halias
            simp [Variable.reference?, halias]
        | none => simp [Variable.reference?, htext]

/-- The variable that a mention of the token resolves to, which is named or introduced. -/
theorem Named.resolve (h : scope.Named t) (hkey : mention.identifier.key? = some (.token t))
    {resolution : Resolution} (hresolves : scope.Resolves mention.identifier resolution changed) :
    ∃ k v, resolution.slot = .registered k ∧ changed.at? k = some v ∧ v.name ≠ some "" ∧
      (scope.find? (.token t) ≠ none → v.reference?.isSome = true) := by
  obtain ⟨descriptor, hidentifier⟩ := Identifier.eq_token_of_key? hkey
  rw [hidentifier] at hresolves
  cases hresolves with
  | apart hkeyless => cases hkeyless
  | @found key k hown hfind =>
      cases hown
      obtain ⟨v, hv, hnamed⟩ := Has.exists_variable h hfind
      refine ⟨k, v, rfl, ?_, name_ne_empty hnamed, fun _ => hnamed⟩
      exact (at?_modifyAt ..).trans ((if_pos rfl).trans (Option.map_eq_some_iff.mpr ⟨v, hv, rfl⟩))
  | introduced hown hfind =>
      cases hown
      refine ⟨scope.size, _, rfl, (at?_introduce ..).trans (if_pos rfl), ?_, absurd hfind⟩
      simp [beginning]

/-- The token itself, unless left nameless, is used by a text. -/
theorem Named.found (h : scope.Named t) (hkey : mention.identifier.key? = some (.token t))
    (hnameless : ¬ mention.LeavesNameless scope t)
    (hused : scope.use mention = (.ok used, later)) : used.found.reference?.isSome = true := by
  obtain ⟨resolution, resolved, slot, changed, slot', hresolves, hqualified, hbound, hfound⟩ :=
    use_ok hused
  obtain ⟨k, v, hslot, hv, halias, hnamed⟩ := h.resolve hkey hresolves
  rw [hslot, slotFor, if_neg (Mention.not_copies_of_token hkey)] at hqualified
  generalize used.qualified = outcome at hqualified
  have hchanged : slot = .registered k ∧
      ∃ v', changed.at? k = some v' ∧ v'.reference?.isSome = true := by
    rw [Mention.LeavesNameless, if_pos hkey] at hnameless
    rcases qualifyBy_ok hqualified with ⟨hasked, -, rfl, rfl⟩ | ⟨text, name, _, hasked, -, hgiven⟩
    · simp only [hasked] at hnameless
      exact ⟨rfl, v, hv, hnamed fun hnone => hnameless (.inl ⟨trivial, hnone⟩)⟩
    · simp only [hasked] at hnameless
      have htext : text ≠ "" := fun h => hnameless (.inr ⟨_, rfl, .inl h⟩)
      have hname : name ≠ some "" := fun h => hnameless (.inr ⟨_, rfl, .inr h⟩)
      exact qualify_named hv halias htext hname hgiven
  obtain ⟨rfl, v', hv', hreference⟩ := hchanged
  obtain ⟨-, hsame⟩ := bindBy_registered hv' hbound
  rw [hfound, hsame]
  exact hreference

/-- Only the variable of a field is refreshed. -/
theorem refresh_text {identifier : Identifier} (h : identifier.text?.isSome = true) (k : Nat) :
    scope.refresh identifier k v = v := by
  cases identifier with
  | field owner path => cases h
  | _ => rfl

/-- A use of another variable than the token's. -/
theorem Named.use_apart (h : scope.Named t) (hkey : mention.identifier.key? ≠ some (.token t))
    (hconcerns : ¬ mention.Concerns scope t) : (scope.use mention).2.Named t := by
  obtain ⟨hbind, hshare⟩ := not_or.mp hconcerns
  have hapart : ∀ own, mention.identifier.key? = some own → mention.Copies ∨
      ¬ scope.Share own (.token t) := by
    intro own hown
    by_cases hcopies : mention.Copies
    · exact .inl hcopies
    · exact .inr fun hshared => hshare ⟨hcopies, own, hown, hshared⟩
  have hresolve : ∀ {resolution now}, scope.Resolves mention.identifier resolution now →
      now.Named t := by
    intro resolution now hresolves
    refine Has.resolve h hresolves (fun hown => absurd hown hkey) ?_
    intro own k v hown hfind hshared hv
    have hcopies := (hapart own hown).resolve_right fun hnot => hnot ⟨k, hfind, hshared⟩
    rwa [refresh_text hcopies.1]
  refine use_keeps h.indexed h hresolve ?_ ?_
  · intro slot slot' now later hreached hnow _ hqualifies
    refine Has.qualify hnow hreached.held hqualifies fun {k} hfind hslot => ?_
    obtain ⟨own, hown, hshared⟩ := hreached.share h.indexed hslot hfind hkey
    rcases hapart own hown with hcopies | hnot
    · obtain ⟨held, hheld⟩ := hreached.apart (.inl hcopies)
      exact Slot.noConfusion (hslot.symm.trans hheld)
    · exact absurd hshared hnot
  · intro slot slot' now later token hreached hnow hasked hrebinds
    have hother : Key.token t ≠ .token token := by
      rintro heq
      cases heq
      exact hbind hasked
    exact Has.rebind hnow hreached.held hrebinds hother fun _ _ _ v hv => hv

/-- A use of the variable that the token leads to, before and after any bind of it. -/
theorem use_place (hconcerns : mention.identifier.key? = some (.token t) ∨ mention.Concerns scope t)
    (hindexed : scope.Indexed) (hused : scope.use mention = (.ok used, later)) {k : Nat}
    (hfind : later.find? (.token t) = some k) : used.found = later.get (.registered k) := by
  obtain ⟨resolution, resolved, slot, changed, slot', hresolves, hqualified, hbound, hfound⟩ :=
    use_ok hused
  have hreached : Reached scope mention slot changed ∧
      ∀ key i, scope.find? key = some i → changed.find? key = some i := by
    have hkept : ∀ key i, scope.find? key = some i → resolved.find? key = some i :=
      fun _ _ => hresolves.find?_kept
    rcases qualifyBy_cases hqualified with ⟨-, -, rfl, rfl⟩ | ⟨-, hqualifies⟩
    · exact ⟨.resolve hindexed hresolves, hkept⟩
    · exact ⟨(Reached.resolve hindexed hresolves).qualify hqualifies,
        fun key i hi => (hqualifies.find? key).trans (hkept key i hi)⟩
  obtain ⟨hreached, hkept⟩ := hreached
  have hslot : mention.bind ≠ some t → changed.find? (.token t) = some k →
      slot = .registered k := by
    intro hbind hold
    rcases hconcerns with hkey | hasked | ⟨hcopies, own, hown, j, hj, hshared⟩
    · obtain ⟨i, rfl, hi⟩ := hreached.leads _ hkey (Mention.not_copies_of_token hkey)
      rw [Option.some.inj (hi.symm.trans hold)]
    · exact absurd hasked hbind
    · obtain ⟨i, rfl, hi⟩ := hreached.leads own hown hcopies
      rw [Option.some.inj (hi.symm.trans (hkept own j hj)),
        Option.some.inj (hold.symm.trans (hkept _ j hshared))]
  rcases bindBy_cases hbound with ⟨hnone, rfl, rfl⟩ | ⟨token, hasked, hrebinds⟩
  · rw [hfound, hslot (by simp [hnone]) hfind]
  · rw [hfound, hrebinds.place]
    rw [hrebinds.find?] at hfind
    split at hfind
    · rw [Option.some.inj hfind]
    · next hother =>
        split at hfind
        · cases hfind
        · have hbind : mention.bind ≠ some t := by
            rintro hbind
            cases hbind.symm.trans hasked
            exact hother rfl
          rw [hslot hbind hfind]
          rfl

/-- A use that does not leave the token nameless leaves its variable named. -/
theorem Named.use (h : scope.Named t) (hused : scope.use mention = (.ok used, later))
    (hnameless : ¬ mention.LeavesNameless scope t) : later.Named t := by
  have hindexed : later.Indexed := by
    have hafter := h.indexed.use mention
    rwa [hused] at hafter
  by_cases hkey : mention.identifier.key? = some (.token t)
  · refine ⟨hindexed, fun {k v} hfind hv => ?_⟩
    have hfound := use_place (.inl hkey) h.indexed hused hfind
    have hnamed := h.found hkey hnameless hused
    rwa [hfound, get, hv] at hnamed
  · rw [Mention.LeavesNameless, if_neg hkey] at hnameless
    by_cases hconcerns : mention.Concerns scope t
    · refine ⟨hindexed, fun {k v} hfind hv => ?_⟩
      have hfound := use_place (.inr hconcerns) h.indexed hused hfind
      have htext : used.found.reference? ≠ none := by
        intro hnone
        refine hnameless ⟨hconcerns, ?_⟩
        rw [textOf?, hused]
        exact hnone
      rw [hfound, get, hv] at htext
      exact Option.isSome_iff_ne_none.mpr htext
    · have hafter : (scope.use mention).2.Named t := h.use_apart hkey hconcerns
      rwa [hused] at hafter

end Scope

/-- The mention is written by the name, in a pattern and elsewhere. -/
structure Moment.Refers (moment : Moment) (name : String) : Prop where
  ne_empty : name ≠ ""
  reference : moment.result? Resolve.reference = some name
  element : ∀ element ∈ moment.result? Resolve.element, element.reference = some name

theorem Moment.refers_of_use {moment : Moment} {used : Use} {later : Scope}
    (hused : moment.known.scope.use moment.mention = (.ok used, later))
    (hnamed : used.found.reference?.isSome = true) : ∃ name, moment.Refers name := by
  obtain ⟨name, hname⟩ := Option.isSome_iff_exists.mp hnamed
  have huse := Resolve.use_eq moment.mention moment.known
  rw [hused] at huse
  refine ⟨name, Variable.ne_empty_of_reference? hname, ?_, fun element helement => ?_⟩
  · rw [result?, Resolve.reference_ok huse hname]
  · simp only [result?, Resolve.element, Bind.bind, EStateM.bind, huse] at helement
    split at helement
    · next result after hresult =>
        split at hresult
        · cases hresult
          cases helement
          exact hname
        · cases hresult
    · cases helement

namespace Draft

theorem upheld_named (t : Token) :
    Upheld (fun scope => scope.Named t) fun moment =>
      moment.Succeeds ∧ ¬ moment.mention.LeavesNameless moment.known.scope t where
  empty := .empty _ _
  use moment hnamed hallowed := by
    obtain ⟨⟨used, later, hused⟩, hnameless⟩ := hallowed
    rw [hused]
    exact hnamed.use hused hnameless

/-- In a program that compiles a token is written by a name wherever it is used, at each position
of a pattern and elsewhere, provided that no mention so far has left it nameless. -/
theorem token_refers (catalog : Catalog) (settings : Settings) (steps : List Step)
    {query : Query} (hcompile : (run steps { catalog, settings }).compile = .ok query)
    {earlier later : List Moment} {moment : Moment}
    (huses : uses steps { catalog, settings } = earlier ++ moment :: later) {t : Token}
    (hidentifier : moment.mention.identifier.key? = some (.token t))
    (hnameless : ∀ past ∈ earlier ++ [moment],
      ¬ past.mention.LeavesNameless past.known.scope t) :
    ∃ name, moment.Refers name := by
  have hsucceed : ∀ past ∈ earlier ++ moment :: later, past.Succeeds :=
    huses ▸ uses_succeed rfl hcompile
  obtain ⟨hearlier, hrest⟩ := List.forall_mem_append.mp hsucceed
  obtain ⟨hnamelessEarlier, hnamelessNow⟩ := List.forall_mem_append.mp hnameless
  have hnamed : moment.known.scope.Named t :=
    (upheld_named t).at_use { catalog, settings } (.empty _ _) huses
      fun past hpast => ⟨hearlier past hpast, hnamelessEarlier past hpast⟩
  obtain ⟨used, after, hused⟩ := hrest moment List.mem_cons_self
  exact Moment.refers_of_use hused
    (hnamed.found hidentifier (hnamelessNow moment (List.mem_singleton_self moment)) hused)

/-- A token that is named where it is first used, and one that a text is bound to. -/
def namedTokenSteps : List Step :=
  [.call (.pattern .matching [{
      start := { identifier := .ofToken ⟨1⟩, qualifier := some "a" }
      hops := [⟨.outgoing, { identifier := .anonymous }, { identifier := .ofToken ⟨1⟩ }⟩] }]),
    .subquery [.call (.pattern .matching [{ start := { identifier := .ofToken ⟨1⟩ } }]),
      .call (.project .returning false [{ identifier := .name "b", bind := some ⟨2⟩ }])],
    .call (.pattern .creating [{ start := { identifier := .ofToken ⟨2⟩ } }])]

theorem token_refers_namedTokenSteps :
    (∃ query, (run namedTokenSteps {}).compile = .ok query ∧ query.text =
      "MATCH (a)-->(a)\nCALL \x7b\n  MATCH (a)\n  RETURN b\n\x7d\nCREATE (b)") ∧
    ∀ t ∈ [⟨1⟩, ⟨2⟩], ∀ moment ∈ uses namedTokenSteps {},
      moment.mention.identifier.key? = some (.token t) → ∃ name, moment.Refers name := by
  have hallowed : ∀ t ∈ [⟨1⟩, ⟨2⟩], ∀ moment ∈ uses namedTokenSteps {},
      ¬ moment.mention.LeavesNameless moment.known.scope t := by decide
  refine ⟨⟨_, rfl, by decide⟩, fun t ht moment hmoment hidentifier => ?_⟩
  obtain ⟨earlier, later, huses⟩ := List.append_of_mem hmoment
  refine token_refers {} {} namedTokenSteps rfl huses hidentifier fun past hpast => ?_
  have hmem : past ∈ uses namedTokenSteps {} := by
    rw [huses, List.append_cons]
    exact List.mem_append_left later hpast
  exact hallowed t ht past hmem

/-- A token that is never given a text, at both ends of a relationship. -/
def namelessTokenSteps : List Step :=
  [.call (.pattern .matching [{
    start := { identifier := .ofToken ⟨1⟩ }
    hops := [⟨.outgoing, { identifier := .anonymous }, { identifier := .ofToken ⟨1⟩ }⟩] }])]

/-- Nothing fails where a pattern uses a token that has no text, and nothing is written for it. -/
theorem token_nameless_namelessTokenSteps :
    ((run namelessTokenSteps {}).compile.toOption.map Query.text = some "MATCH ()-->()") ∧
    failures namelessTokenSteps {} = [] ∧
    ((uses namelessTokenSteps {}).countP fun moment =>
      moment.mention.identifier.key? = some (.token ⟨1⟩)) = 2 ∧
    ∀ moment ∈ uses namelessTokenSteps {},
      moment.mention.identifier.key? = some (.token ⟨1⟩) →
        (moment.result? Resolve.element).map Element.reference = some none := by
  decide

end Draft

end GraphQuery
