import GraphQuery.Proofs.Draft.Uses

/-! # Query text

A variable that is mentioned by its text is written as that text wherever it is used as it is.
Qualifying the text qualifies a copy. A token that is bound to the text leads to the variable
itself, and only a qualification of such a token renames it. -/

namespace GraphQuery

theorem Identifier.key?_eq_text_iff {identifier : Identifier} {text : String} :
    identifier.key? = some (.text text) ↔ identifier.text? = some text := by
  cases identifier <;> simp [key?, text?]

/-- The mention renames the variable of the text, through a token that leads to it. -/
def Mention.Renames (mention : Mention) (scope : Scope) (text : String) : Prop :=
  mention.qualification?.isSome ∧
    ∃ key ∈ mention.identifier.key?, key.isToken ∧ scope.Share key (.text text)

instance (mention : Mention) (scope : Scope) (text : String) :
    Decidable (mention.Renames scope text) :=
  inferInstanceAs (Decidable (_ ∧ ∃ key ∈ mention.identifier.key?, _))

namespace Scope

variable {scope later : Scope} {text : String} {slot slot' : Slot} {identifier : Identifier}

/-- A text can be resolved whatever has been retired. -/
theorem exists_resolve_text (scope : Scope) (h : identifier.text? = some text) :
    ∃ resolution resolved, scope.resolve identifier = .ok (resolution, resolved) := by
  cases identifier with
  | name _ | raw _ => exact ⟨_, _, rfl⟩
  | _ => cases h

/-- The variable of the text is the text, without an alias. -/
def Plain (scope : Scope) (text : String) : Prop :=
  scope.Has (.text text) fun v => v.name = none ∧ v.expression = some text

namespace Plain

theorem resolve (h : scope.Plain text) {resolution : Resolution}
    (hresolves : scope.Resolves identifier resolution later) : later.Plain text :=
  Has.resolve_text h ⟨rfl, rfl⟩ hresolves

/-- Binding gives a variable a destination and leaves its text alone. -/
theorem rebind (h : scope.Plain text) (hheld : slot.Held scope) {token : Token}
    (hrebinds : scope.Rebinds slot identifier token slot' later) : later.Plain text :=
  Has.rebind h hheld hrebinds (fun heq => by cases heq) fun _ _ _ _ hv => hv

theorem use (h : scope.Plain text) {mention : Mention}
    (hplain : mention.bind = none ∨ mention.qualification? = none)
    (hrenames : ¬ mention.Renames scope text) : (scope.use mention).2.Plain text := by
  refine use_keeps h.indexed h h.resolve ?_ ?_
  · intro slot slot' now later hreached hnow hasked hqualifies
    -- The slot cannot be that of the text, or the mention would rename it.
    refine Has.qualify hnow hreached.held hqualifies fun {k} hfind hslot => ?_
    exfalso
    by_cases hkey : mention.identifier.key? = some (.text text)
    · have hbind : mention.bind = none :=
        hplain.resolve_right (Option.isSome_iff_ne_none.mp hasked)
      have hcopies : mention.Copies :=
        ⟨Option.isSome_of_eq_some (Identifier.key?_eq_text_iff.mp hkey), hbind, hasked⟩
      obtain ⟨held, hheld⟩ := hreached.apart (.inl hcopies)
      exact Slot.noConfusion (hslot.symm.trans hheld)
    · obtain ⟨own, hown, hshare⟩ := hreached.share h.indexed hslot hfind hkey
      cases htoken : own.isToken with
      | true => exact hrenames ⟨hasked, own, hown, htoken, hshare⟩
      | false =>
          obtain ⟨i, hi, hi'⟩ := hshare
          exact hkey (h.indexed.distinct htoken rfl hi hi' ▸ hown)
  · intro slot slot' now later token hreached hnow _ hrebinds
    exact hnow.rebind hreached.held hrebinds

/-- The text used as it is gives its variable as it is, unless a retired token is to be bound. -/
theorem use_eq_ok (h : scope.Plain text) {mention : Mention}
    (htext : mention.identifier.text? = some text) (hasked : mention.qualification? = none)
    (hlive : ∀ token ∈ mention.bind, token ∉ scope.retired) :
    ∃ used later, scope.use mention = (.ok used, later) ∧ used.qualified = none ∧
      used.found.name = none ∧ used.found.expression = some text := by
  have hkey : mention.identifier.key? = some (.text text) := Identifier.key?_eq_text_iff.mpr htext
  obtain ⟨resolution, resolved, hresolve⟩ := scope.exists_resolve_text htext
  have hresolves := resolves_of_ok hresolve
  have hresolved : resolved.Plain text := h.resolve hresolves
  have hreached := Reached.resolve h.indexed hresolves
  have hcopies : ¬ mention.Copies := by
    rintro ⟨-, -, hsome⟩
    simp [hasked] at hsome
  obtain ⟨k, hslot, hfind⟩ := hreached.leads _ hkey hcopies
  obtain ⟨v, hv, hname, hexpression⟩ := hresolved.exists_variable hfind
  rw [use_of_resolve hresolve hasked, hslot]
  cases hbind : mention.bind with
  | none =>
      simp only [bindBy, hbind]
      refine ⟨_, _, rfl, rfl, ?_⟩
      simp [get, hv, hname, hexpression]
  | some token =>
      have hretired : token ∉ resolved.retired := by
        rw [hresolves.retired]
        exact hlive token hbind
      simp only [bindBy, hbind, rebind_eq, if_neg hretired]
      refine ⟨_, _, rfl, rfl, ?_⟩
      simp [get, register, at?_attached, hv, hname, hexpression]

end Plain

end Scope

/-! ## What is written -/

/-- Wherever the mention stands, what is written for its variable is the text. -/
structure Moment.Writes (moment : Moment) (text : String) : Prop where
  reference : moment.result? Resolve.reference = some text
  column : ∃ destination, moment.result? Resolve.column = some ⟨text, text, destination⟩
  element : ∀ element ∈ moment.result? Resolve.element, element.reference = some text

theorem Moment.column_of_use {moment : Moment} {text : String} {used : Use} {after : Vocabulary}
    (h : Resolve.use moment.mention moment.known = .ok used after)
    (hreference : used.found.reference? = some text) :
    moment.result? Resolve.column =
      some ⟨used.columnText text, text, used.found.destination⟩ := by
  simp only [result?, Resolve.column, Bind.bind, EStateM.bind, h, hreference]
  rfl

theorem Moment.writes_of_use {moment : Moment} {text : String} {used : Use} {after : Vocabulary}
    (h : Resolve.use moment.mention moment.known = .ok used after)
    (hreference : used.found.reference? = some text) (hqualified : used.qualified = none) :
    moment.Writes text where
  reference := by rw [result?, Resolve.reference_ok h hreference]
  column := by
    refine ⟨used.found.destination, ?_⟩
    rw [column_of_use h hreference]
    simp [Use.columnText, hqualified]
  element element helement := by
    simp only [result?, Resolve.element, Bind.bind, EStateM.bind, h] at helement
    cases hproperties : moment.mention.properties.entries.mapM Resolve.property after with
    | error fault later => simp [hproperties] at helement
    | ok properties later =>
        simp only [hproperties] at helement
        cases helement
        exact hreference

namespace Draft

variable (draft : Draft)

theorem upheld_plain (text : String) :
    Upheld (fun scope => scope.Plain text) fun moment =>
      (moment.mention.bind = none ∨ moment.mention.qualification? = none) ∧
        ¬ moment.mention.Renames moment.known.scope text where
  empty := .empty _ _
  use _ hplain hallowed := hplain.use hallowed.1 hallowed.2

/-- A text that is used as it is, in whatever clause and block, is written as it is, provided that
no mention before has renamed its variable through a token. -/
theorem text_writes_itself (catalog : Catalog) (settings : Settings) (steps : List Step)
    {text : String} (htext : text ≠ "") {earlier later : List Moment} {moment : Moment}
    (huses : uses steps { catalog, settings } = earlier ++ moment :: later)
    (hbinds : ∀ past ∈ earlier,
      past.mention.bind = none ∨ past.mention.qualification? = none)
    (hrenames : ∀ past ∈ earlier, ¬ past.mention.Renames past.known.scope text)
    (hidentifier : moment.mention.identifier.text? = some text)
    (hasked : moment.mention.qualification? = none)
    (hlive : ∀ token ∈ moment.mention.bind, token ∉ moment.known.scope.retired) :
    moment.Writes text := by
  have hplain : moment.known.scope.Plain text :=
    (upheld_plain text).at_use { catalog, settings } (.empty _ _) huses
      fun past hpast => ⟨hbinds past hpast, hrenames past hpast⟩
  obtain ⟨used, later, huse, hqualified, hname, hexpression⟩ :=
    hplain.use_eq_ok hidentifier hasked hlive
  have hresult := Resolve.use_eq moment.mention moment.known
  rw [huse] at hresult
  refine Moment.writes_of_use hresult ?_ hqualified
  simp [Variable.reference?, hname, hexpression, htext]

/-- A text that is bound to a token and then qualified, used again inside a block and after it. -/
def qualifiedTextSteps : List Step :=
  [.call (.project .passing false [{ identifier := .name "n", bind := some ⟨1⟩ }]),
    .call (.project .passing false [{ identifier := .name "n", qualifier := some "m" }]),
    .subquery [.call (.condition (.comparison (.name "n") "=" (.ofToken ⟨1⟩)))],
    .call (.project .returning false [{ identifier := .raw "n" }])]

theorem text_writes_itself_qualifiedTextSteps :
    ((uses qualifiedTextSteps {}).countP fun moment =>
      moment.mention.identifier.text? = some "n" ∧ moment.mention.qualification? = none) = 3 ∧
    ∀ moment ∈ uses qualifiedTextSteps {}, moment.mention.identifier.text? = some "n" →
      moment.mention.qualification? = none → moment.Writes "n" := by
  have hallowed : ∀ moment ∈ uses qualifiedTextSteps {},
      (moment.mention.bind = none ∨ moment.mention.qualification? = none) ∧
        ¬ moment.mention.Renames moment.known.scope "n" ∧
        ∀ token ∈ moment.mention.bind, token ∉ moment.known.scope.retired := by decide
  refine ⟨by decide, fun moment hmoment htext hasked => ?_⟩
  obtain ⟨earlier, later, huses⟩ := List.append_of_mem hmoment
  have hearlier : ∀ moment ∈ earlier, moment ∈ uses qualifiedTextSteps {} :=
    fun moment h => huses ▸ List.mem_append_left _ h
  exact text_writes_itself {} {} qualifiedTextSteps (by decide) huses
    (fun moment h => (hallowed moment (hearlier moment h)).1)
    (fun moment h => (hallowed moment (hearlier moment h)).2.1) htext hasked
    (hallowed moment hmoment).2.2

/-- A text that is bound to a token, and the token qualified. -/
def renamedTextSteps : List Step :=
  [.call (.project .passing false [{ identifier := .name "n", bind := some ⟨1⟩ }]),
    .call (.project .passing false [{ identifier := .ofToken ⟨1⟩, qualifier := some "m" }]),
    .call (.project .returning false [{ identifier := .name "n" }])]

/-- Where a token has renamed the variable of a text, the text is written as something else. -/
theorem text_renamed_renamedTextSteps :
    (∀ moment ∈ uses renamedTextSteps {},
      moment.mention.bind = none ∨ moment.mention.qualification? = none) ∧
    ∃ moment ∈ uses renamedTextSteps {}, moment.mention.identifier.text? = some "n" ∧
      moment.mention.qualification? = none ∧ moment.mention.bind = none ∧
      moment.result? Resolve.reference = some "m" := by
  decide

end Draft

end GraphQuery
