import GraphQuery.Proofs.Draft.Returns

/-! # Destinations

A column that is returned by a token fills that token. The variable that a token leads to has the
token as its destination until another token is bound to it by a mention that is not the token. -/

namespace GraphQuery

/-- The mention gives a variable that the token leads to another token. -/
def Mention.Displaces (mention : Mention) (scope : Scope) (t : Token) : Prop :=
  ∃ token ∈ mention.bind, token ≠ t ∧
    ∃ key ∈ mention.identifier.key?, key ≠ .token t ∧ scope.Share key (.token t)

instance (mention : Mention) (scope : Scope) (t : Token) :
    Decidable (mention.Displaces scope t) :=
  inferInstanceAs (Decidable (∃ token ∈ mention.bind, token ≠ t ∧
    ∃ key ∈ mention.identifier.key?, key ≠ .token t ∧ scope.Share key (.token t)))

/-! ## Variables of tokens -/

namespace Scope

variable {scope later : Scope} {t : Token} {slot slot' : Slot} {identifier : Identifier}

theorem beginning_destination (h : identifier.key? = some (.token t)) :
    (scope.beginning identifier).destination = some t := by
  obtain ⟨descriptor, rfl⟩ := Identifier.eq_token_of_key? h
  rfl

/-- The variable that the token leads to, if any, has it as its destination. -/
def Pointed (scope : Scope) (t : Token) : Prop :=
  scope.Has (.token t) fun v => v.destination = some t

namespace Pointed

theorem resolve (h : scope.Pointed t) {resolution : Resolution}
    (hresolves : scope.Resolves identifier resolution later) : later.Pointed t :=
  Has.resolve h hresolves beginning_destination fun _ _ _ hv =>
    (refresh_destination ..).trans hv

theorem qualify (h : scope.Pointed t) (hheld : slot.Held scope)
    (hqualifies : scope.Qualifies slot slot' later) : later.Pointed t :=
  Has.qualify h hheld hqualifies fun _ _ _ _ _ hv => hv

theorem rebind (h : scope.Pointed t) (hheld : slot.Held scope) {token : Token}
    (hrebinds : scope.Rebinds slot identifier token slot' later)
    (hslot : token ≠ t → identifier.key? ≠ some (.token t) →
      ∀ k, scope.find? (.token t) = some k → slot ≠ .registered k) : later.Pointed t := by
  by_cases hsame : token = t
  · subst hsame
    exact .rebind_self h.indexed hheld hrebinds fun _ => rfl
  · have hkey : Key.token t ≠ .token token := fun heq => hsame (Key.token.inj heq).symm
    refine Has.rebind h hheld hrebinds hkey fun {k} hfind hk hreplaced => absurd hk ?_
    refine hslot hsame (fun heq => ?_) k hfind
    obtain ⟨descriptor, rfl⟩ := Identifier.eq_token_of_key? heq
    exact hreplaced (by simp [replacedToken?, Ne.symm hsame])

theorem use (h : scope.Pointed t) {mention : Mention} (hdisplaces : ¬ mention.Displaces scope t) :
    (scope.use mention).2.Pointed t := by
  refine use_keeps h.indexed h h.resolve ?_ ?_
  · intro slot slot' now later hreached hnow _ hqualifies
    exact hnow.qualify hreached.held hqualifies
  · intro slot slot' now later token hreached hnow hbind hrebinds
    refine hnow.rebind hreached.held hrebinds fun hne hkey k hfind hslot => ?_
    obtain ⟨own, hown, hshare⟩ := hreached.share h.indexed hslot hfind hkey
    have hother : own ≠ .token t := fun heq => hkey (heq ▸ hown)
    exact hdisplaces ⟨token, hbind, hne, own, hown, hother, hshare⟩

/-- The token mentioned without a bind has a variable with itself as the destination. -/
theorem use_found (h : scope.Pointed t) {mention : Mention} {used : Use}
    (hkey : mention.identifier.key? = some (.token t)) (hbind : mention.bind = none)
    (hused : scope.use mention = (.ok used, later)) : used.found.destination = some t := by
  have hdisplaces : ¬ mention.Displaces scope t := by
    rintro ⟨token, hasked, -⟩
    cases hbind.symm.trans hasked
  have hlater : later.Pointed t := by
    have huse := h.use hdisplaces
    rwa [hused] at huse
  have hcopies : ¬ mention.Copies := by
    obtain ⟨descriptor, hidentifier⟩ := Identifier.eq_token_of_key? hkey
    rintro ⟨htext, -⟩
    simp [hidentifier, Identifier.text?] at htext
  obtain ⟨slot, hreached, hfound⟩ := use_reached h.indexed hbind hused
  obtain ⟨k, rfl, hfind⟩ := hreached.leads _ hkey hcopies
  obtain ⟨v, hv, hdestination⟩ := hlater.exists_variable hfind
  rw [hfound, get, hv]
  exact hdestination

end Pointed

end Scope

namespace Draft

theorem upheld_pointed (t : Token) :
    Upheld (fun scope => scope.Pointed t) fun moment =>
      ¬ moment.mention.Displaces moment.known.scope t where
  empty := .empty _ _
  use _ hpointed hallowed := hpointed.use hallowed

/-- In a query that compiles, a column that is returned by a token fills the token, provided that
no mention before has given the variable of the token another one. -/
theorem returned_token_bound (catalog : Catalog) (settings : Settings) (steps : List Step)
    {query : Query} (hcompile : (run steps { catalog, settings }).compile = .ok query)
    {earlier later : List Moment} {moment : Moment}
    (huses : uses steps { catalog, settings } = earlier ++ moment :: later)
    (hreturned : moment ∈ returns steps { catalog, settings }) {t : Token}
    (hidentifier : moment.mention.identifier.key? = some (.token t))
    (hbind : moment.mention.bind = none)
    (hdisplaces : ∀ past ∈ earlier, ¬ past.mention.Displaces past.known.scope t) :
    ∃ column, moment.result? Resolve.column = some column ∧
      (column.name, t) ∈ query.bindings := by
  have hpointed : moment.known.scope.Pointed t :=
    (upheld_pointed t).at_use { catalog, settings } (.empty _ _) huses hdisplaces
  obtain ⟨column, hcolumn, hresult⟩ := exists_returned _ hreturned
  refine ⟨column, hresult, ?_⟩
  have hdestination : column.destination = some t := by
    unfold Moment.result? at hresult
    split at hresult
    · next result after hok =>
        cases hresult
        obtain ⟨used, later, hused, hsame⟩ := Resolve.column_ok hok
        rw [hsame, hpointed.use_found hidentifier hbind hused]
    · cases hresult
  unfold compile at hcompile
  split at hcompile
  · cases hcompile
  · refine (Query.mem_bindings_iff hcompile).mpr ⟨column, hcolumn, ?_⟩
    rw [Column.binding?, hdestination]
    rfl

/-- A token bound to a text and one that has no text of its own, each returned by a branch. -/
def returnedTokenSteps : List Step :=
  [.union .all
    [[.call (.project .passing false [{ identifier := .name "n", bind := some ⟨1⟩ }]),
        .call (.project .returning true [{ identifier := .ofToken ⟨1⟩, qualifier := some "m" }])],
      [.call (.project .returning false [{ identifier := .ofToken ⟨1⟩, name := some "k" }])]]]

theorem returned_token_bound_returnedTokenSteps :
    ∃ query, (run returnedTokenSteps {}).compile = .ok query ∧
      (returns returnedTokenSteps {}).length = 2 ∧
      ∀ moment ∈ returns returnedTokenSteps {}, ∃ column,
        moment.result? Resolve.column = some column ∧ (column.name, ⟨1⟩) ∈ query.bindings := by
  have hallowed : ∀ moment ∈ uses returnedTokenSteps {},
      ¬ moment.mention.Displaces moment.known.scope ⟨1⟩ := by decide
  have hreturns : ∀ moment ∈ returns returnedTokenSteps {},
      moment.mention.identifier.key? = some (.token ⟨1⟩) ∧ moment.mention.bind = none := by decide
  refine ⟨_, rfl, by decide, fun moment hmoment => ?_⟩
  obtain ⟨earlier, later, huses⟩ :=
    List.append_of_mem ((returns_sublist_uses {} returnedTokenSteps).mem hmoment)
  exact returned_token_bound {} {} returnedTokenSteps rfl huses hmoment (hreturns moment hmoment).1
    (hreturns moment hmoment).2 fun moment h => hallowed moment (huses ▸ List.mem_append_left _ h)

/-- A text that is bound to one token and then to another, and the first token returned. -/
def displacedTokenSteps : List Step :=
  [.call (.project .passing false [{ identifier := .name "n", bind := some ⟨1⟩ }]),
    .call (.project .passing false [{ identifier := .name "n", bind := some ⟨2⟩ }]),
    .call (.project .returning false [{ identifier := .ofToken ⟨1⟩ }])]

/-- A token whose variable has been given another one is still returned, but not filled. -/
theorem returned_token_unbound_displacedTokenSteps :
    ((run displacedTokenSteps {}).compile.toOption.map Query.bindings = some [("n", ⟨2⟩)]) ∧
    ∃ moment ∈ returns displacedTokenSteps {},
      moment.mention.identifier.key? = some (.token ⟨1⟩) ∧ moment.mention.bind = none ∧
      (moment.result? Resolve.column).map Column.name = some "n" := by
  decide

end Draft

end GraphQuery
