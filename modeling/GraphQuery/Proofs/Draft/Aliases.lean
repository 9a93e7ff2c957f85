import GraphQuery.Proofs.Draft.Naming
import GraphQuery.Proofs.Draft.QueryText
import GraphQuery.Proofs.Draft.Trail

/-! # Alias chains

A token that is qualified where it is first used goes by the text it is given, and each further
qualification gives it another alias in place of the one before. -/

namespace GraphQuery

namespace Scope

variable {scope later : Scope} {mention : Mention} {t : Token} {k : Nat} {v : Variable}

/-! ## Uses of other variables -/

/-- The token has not been used. -/
structure Untouched (scope : Scope) (t : Token) : Prop where
  indexed : scope.Indexed
  find? : scope.find? (.token t) = none
  live : t ∉ scope.retired

/-- The variable that the token leads to, and no other key. -/
structure Owns (scope : Scope) (t : Token) (k : Nat) (v : Variable) : Prop where
  indexed : scope.Indexed
  find? : scope.find? (.token t) = some k
  live : t ∉ scope.retired
  at? : scope.at? k = some v
  only : ∀ key, scope.find? key = some k → key = .token t

theorem Resolves.find?_of_ne {identifier : Identifier} {resolution : Resolution} {key : Key}
    (hresolves : scope.Resolves identifier resolution later)
    (hkey : identifier.key? ≠ some key) : later.find? key = scope.find? key := by
  cases hresolves with
  | apart hnone => rfl
  | found hown hfind => exact find?_modifyAt ..
  | introduced hown hfind =>
      rw [find?_introduce, if_neg]
      rintro rfl
      exact hkey hown

theorem Rebinds.find?_token_of_ne {slot slot' : Slot} {identifier : Identifier} {token : Token}
    (hrebinds : scope.Rebinds slot identifier token slot' later)
    (hkey : identifier.key? ≠ some (.token t)) (htoken : token ≠ t) :
    later.find? (.token t) = scope.find? (.token t) := by
  refine hrebinds.find?_of_not_named ?_
  rintro _ ⟨⟩ (hsame | hown)
  · exact htoken hsame
  · exact hkey hown

theorem Rebinds.live_of_ne {slot slot' : Slot} {identifier : Identifier} {token : Token}
    (hrebinds : scope.Rebinds slot identifier token slot' later)
    (hkey : identifier.key? ≠ some (.token t)) (hlive : t ∉ scope.retired) :
    t ∉ later.retired := by
  rw [hrebinds.retired]
  rintro (hold | hretired)
  · exact hkey (replacedToken?_eq_some hold)
  · exact hlive hretired

theorem ne_of_bind {token : Token} (hbind : mention.bind ≠ some t)
    (hasked : mention.bind = some token) : token ≠ t := by
  rintro rfl
  exact hbind hasked

namespace Untouched

theorem empty (t : Token) : Untouched {} t :=
  ⟨.empty, find?_empty _, List.not_mem_nil⟩

theorem use (h : scope.Untouched t) (hkey : mention.identifier.key? ≠ some (.token t))
    (hbind : mention.bind ≠ some t) : (scope.use mention).2.Untouched t := by
  have hresolve : ∀ {resolution now}, scope.Resolves mention.identifier resolution now →
      now.Untouched t := fun hresolves =>
    ⟨h.indexed.resolve hresolves, (hresolves.find?_of_ne hkey).trans h.find?,
      hresolves.retired ▸ h.live⟩
  refine use_keeps h.indexed h hresolve ?_ ?_
  · intro slot slot' now later hreached hnow _ hqualifies
    exact ⟨hnow.indexed.qualify hreached.held hqualifies,
      (hqualifies.find? _).trans hnow.find?, hqualifies.retired ▸ hnow.live⟩
  · intro slot slot' now later token hreached hnow hasked hrebinds
    exact ⟨hnow.indexed.rebind hreached.held hrebinds,
      (hrebinds.find?_token_of_ne hkey (ne_of_bind hbind hasked)).trans hnow.find?,
      hrebinds.live_of_ne hkey hnow.live⟩

end Untouched

namespace Owns

theorem resolve (h : scope.Owns t k v) {identifier : Identifier} {resolution : Resolution}
    (hresolves : scope.Resolves identifier resolution later)
    (hkey : identifier.key? ≠ some (.token t)) : later.Owns t k v := by
  have hlt : k < scope.size := h.indexed.lt_size h.find?
  refine ⟨h.indexed.resolve hresolves, (hresolves.find?_of_ne hkey).trans h.find?,
    hresolves.retired ▸ h.live, ?_, fun key hfind => ?_⟩
  · cases hresolves with
    | apart hnone => exact h.at?
    | @found key i hown hfind =>
        have hne : k ≠ i := by
          rintro rfl
          exact hkey (h.only key hfind ▸ hown)
        exact (at?_modifyAt ..).trans ((if_neg hne).trans h.at?)
    | introduced hown hfind =>
        rw [at?_introduce, if_neg (Nat.ne_of_lt hlt)]
        exact h.at?
  · cases hresolves with
    | apart hnone => exact h.only key hfind
    | found hown hold => exact h.only key ((find?_modifyAt ..).symm.trans hfind)
    | introduced hown hold =>
        rw [find?_introduce] at hfind
        split at hfind
        · exact absurd (Option.some.inj hfind) (Nat.ne_of_gt hlt)
        · exact h.only key hfind

/-- No other mention comes to have the variable in its slot. -/
theorem slot_ne (h : scope.Owns t k v) (hkey : mention.identifier.key? ≠ some (.token t))
    {slot : Slot} {now : Scope} (hreached : Reached scope mention slot now)
    (hnow : now.Owns t k v) : slot ≠ .registered k := by
  intro hslot
  obtain ⟨own, hown, i, hi, hshared⟩ := hreached.share h.indexed hslot hnow.find? hkey
  cases hshared.symm.trans h.find?
  exact hkey (h.only own hi ▸ hown)

theorem use (h : scope.Owns t k v) (hkey : mention.identifier.key? ≠ some (.token t))
    (hbind : mention.bind ≠ some t) : (scope.use mention).2.Owns t k v := by
  have hresolve : ∀ {resolution now}, scope.Resolves mention.identifier resolution now →
      now.Owns t k v := fun hresolves => h.resolve hresolves hkey
  refine use_keeps h.indexed h hresolve ?_ ?_
  · intro slot slot' now later hreached hnow _ hqualifies
    exact ⟨hnow.indexed.qualify hreached.held hqualifies,
      (hqualifies.find? _).trans hnow.find?, hqualifies.retired ▸ hnow.live,
      (hqualifies.at?_of_ne (h.slot_ne hkey hreached hnow)).trans hnow.at?,
      fun key hfind => hnow.only key (hqualifies.find? key ▸ hfind)⟩
  · intro slot slot' now later token hreached hnow hasked hrebinds
    have hlt : k < now.size := hnow.indexed.lt_size hnow.find?
    have hslot : slot ≠ .registered k := h.slot_ne hkey hreached hnow
    refine ⟨hnow.indexed.rebind hreached.held hrebinds,
      (hrebinds.find?_token_of_ne hkey (ne_of_bind hbind hasked)).trans hnow.find?,
      hrebinds.live_of_ne hkey hnow.live,
      (hrebinds.at?_of_ne hlt hslot).trans hnow.at?, fun key hfind => ?_⟩
    rw [hrebinds.find?] at hfind
    split at hfind
    · exact absurd (Option.some.inj hfind).symm (register_ne hlt hslot)
    · split at hfind
      · cases hfind
      · exact hnow.only key hfind

end Owns

/-! ## Uses of the token -/

theorem Untouched.resolve_token (h : scope.Untouched t) {identifier : Identifier}
    (hkey : identifier.key? = some (.token t)) :
    scope.resolve identifier = .ok (⟨.registered scope.size, true⟩,
      scope.introduce (.token t) (scope.beginning identifier)) := by
  obtain ⟨descriptor, rfl⟩ := Identifier.eq_token_of_key? hkey
  rw [resolve_of_live rfl h.live]
  simp [resolved, Identifier.key?, h.find?]

theorem Owns.resolve_token (h : scope.Owns t k v) {identifier : Identifier}
    (hkey : identifier.key? = some (.token t)) :
    scope.resolve identifier = .ok (⟨.registered k, false⟩, scope) := by
  obtain ⟨descriptor, rfl⟩ := Identifier.eq_token_of_key? hkey
  have hkept : scope.refreshed (.token t descriptor) k = scope := modifyAt_same k
  rw [resolve_of_live rfl h.live]
  simp [resolved, Identifier.key?, h.find?, hkept]

/-- The use of a token that qualifies it and binds nothing. -/
theorem use_token (hkey : mention.identifier.key? = some (.token t)) (hbind : mention.bind = none)
    {resolved : Scope} {created : Bool}
    (hresolve : scope.resolve mention.identifier = .ok (⟨.registered k, created⟩, resolved))
    {text : String} {name : Option String} (hasked : mention.qualification? = some (text, name)) :
    scope.use mention =
      match resolved.qualify (.registered k) mention.identifier text name with
      | .error fault => (.error fault, resolved)
      | .ok (qualified, slot, changed) =>
          (.ok ⟨changed.get slot, created, some qualified⟩, changed) := by
  rw [Scope.use, hresolve]
  simp only [slotFor, if_neg (Mention.not_copies_of_token hkey), qualifyBy, hasked]
  cases resolved.qualify (.registered k) mention.identifier text name with
  | error fault => rfl
  | ok changed =>
      simp only [bindBy, hbind]
      rfl

/-- The first use of a token, which gives it an expression and perhaps a name. -/
theorem Untouched.use_token (h : scope.Untouched t)
    (hkey : mention.identifier.key? = some (.token t)) (hbind : mention.bind = none)
    {origin : String} {given : Option String}
    (hasked : mention.qualification? = some (origin, given)) :
    ∃ label later, scope.use mention =
        (.ok ⟨⟨given, some origin, label, some t⟩, true, some .expression⟩, later) ∧
      later.Owns t scope.size ⟨given, some origin, label, some t⟩ := by
  obtain ⟨descriptor, hidentifier⟩ := Identifier.eq_token_of_key? hkey
  let v : Variable := ⟨given, some origin, descriptor.map Descriptor.label, some t⟩
  let resolved := scope.introduce (.token t) (scope.beginning mention.identifier)
  let changed := (resolved.modifyAt scope.size fun v =>
    { v with expression := some origin, name := given <|> v.name }).pin (.registered scope.size)
  have hbefore : resolved.at? scope.size = some (scope.beginning mention.identifier) :=
    (at?_introduce ..).trans (if_pos rfl)
  have hat : changed.at? scope.size = some v := by
    rw [at?_pin, at?_modifyAt, if_pos rfl, hbefore, hidentifier]
    simp [beginning, v]
  have hqualify : resolved.qualify (.registered scope.size) mention.identifier origin given =
      .ok (.expression, .registered scope.size, changed) := by
    simp [Scope.qualify, get, hbefore, hidentifier, beginning, Variable.hasExpression, modify,
      changed]
  have huse := Scope.use_token hkey hbind (h.resolve_token hkey) hasked
  have hindexed := h.indexed.use mention
  rw [hqualify] at huse
  rw [huse] at hindexed
  have hfind : ∀ key, changed.find? key =
      if key = .token t then some scope.size else scope.find? key := fun key =>
    (find?_pin ..).trans ((find?_modifyAt ..).trans (find?_introduce ..))
  refine ⟨descriptor.map Descriptor.label, changed, by simp [huse, get, hat, v], hindexed,
    (hfind _).trans (if_pos rfl), ?_, hat, fun key hkey => ?_⟩
  · change t ∉ resolved.retired
    rw [retired_introduce]
    exact h.live
  · rw [hfind] at hkey
    split at hkey
    · assumption
    · exact absurd (h.indexed.lt_size hkey) (Nat.lt_irrefl _)

theorem Owns.use_plain (h : scope.Owns t k v)
    (hkey : mention.identifier.key? = some (.token t)) (hbind : mention.bind = none)
    (hasked : mention.qualification? = none) :
    scope.use mention = (.ok ⟨v, false, none⟩, scope) := by
  have hget : scope.get (.registered k) = v := by simp [get, h.at?]
  rw [use_of_resolve (h.resolve_token hkey) hasked, slotFor,
    if_neg (Mention.not_copies_of_token hkey), bindBy, hbind, ← hget]
  rfl

theorem Owns.use_renamed (h : scope.Owns t k v)
    (hkey : mention.identifier.key? = some (.token t)) (hbind : mention.bind = none)
    {qualifier : String} (hasked : mention.qualification? = some (qualifier, none))
    (hexpression : v.hasExpression = true) :
    let v' := { v with name := some qualifier }
    ∃ later, scope.use mention = (.ok ⟨v', false, some (.renamed (v.reference?.getD ""))⟩, later) ∧
      later.Owns t k v' := by
  let changed := scope.modifyAt k fun v => { v with name := some qualifier }
  have hat : changed.at? k = some { v with name := some qualifier } := by
    rw [at?_modifyAt, if_pos rfl, h.at?]
    rfl
  have hqualify : scope.qualify (.registered k) mention.identifier qualifier none =
      .ok (.renamed (v.reference?.getD ""), .registered k, changed) := by
    simp [Scope.qualify, get, h.at?, hexpression, modify, changed]
  have huse := use_token hkey hbind (h.resolve_token hkey) hasked
  have hindexed := h.indexed.use mention
  rw [hqualify] at huse
  rw [huse] at hindexed
  exact ⟨changed, by simp [huse, get, hat], hindexed, (find?_modifyAt ..).trans h.find?, h.live,
    hat, fun key hfind => h.only key ((find?_modifyAt ..).symm.trans hfind)⟩

theorem Owns.use_doubled (h : scope.Owns t k v)
    (hkey : mention.identifier.key? = some (.token t)) (hbind : mention.bind = none)
    {qualifier given : String} (hasked : mention.qualification? = some (qualifier, some given))
    (hexpression : v.hasExpression = true) :
    scope.use mention = (.error (.duplicateQualification t.display qualifier), scope) := by
  obtain ⟨descriptor, hidentifier⟩ := Identifier.eq_token_of_key? hkey
  rw [Scope.use_token hkey hbind (h.resolve_token hkey) hasked, hidentifier]
  simp [Scope.qualify, get, h.at?, hexpression, Identifier.display]

end Scope

/-! ## Chains of names -/

namespace Mention

/-- The name of the token after the mention, if it was `name` before. -/
def renamed (mention : Mention) (t : Token) (name : String) : String :=
  if mention.identifier.key? = some (.token t) then
    match mention.qualification? with
    | some (qualifier, none) => qualifier
    | _ => name
  else name

/-- The mention binds neither the token nor its variable, and gives it no empty name. -/
def Forwards (mention : Mention) (t : Token) : Prop :=
  mention.bind ≠ some t ∧
    (mention.identifier.key? = some (.token t) →
      mention.bind = none ∧ mention.qualification? ≠ some ("", none))

instance (mention : Mention) (t : Token) : Decidable (mention.Forwards t) :=
  inferInstanceAs (Decidable (_ ∧ (_ → _)))

end Mention

/-- The name of the token after the uses, if it was `name` before. -/
def nameAfter (t : Token) (name : String) (used : List Moment) : String :=
  used.foldl (fun name moment => moment.mention.renamed t name) name

/-- The token goes by the name: it leads to a variable of its own, which has it as its
destination. -/
def Scope.GoesBy (scope : Scope) (t : Token) (name : String) : Prop :=
  ∃ k v, scope.Owns t k v ∧ v.hasExpression = true ∧ v.reference? = some name ∧
    v.destination = some t

namespace Scope.GoesBy

variable {scope later : Scope} {mention : Mention} {t : Token} {name : String}

theorem use (h : scope.GoesBy t name) (hforwards : mention.Forwards t) :
    (scope.use mention).2.GoesBy t (mention.renamed t name) := by
  obtain ⟨k, v, howns, hexpression, hname, hdestination⟩ := h
  obtain ⟨hbind, htoken⟩ := hforwards
  by_cases hkey : mention.identifier.key? = some (.token t)
  · obtain ⟨hbind, htext⟩ := htoken hkey
    cases hasked : mention.qualification? with
    | none =>
        rw [howns.use_plain hkey hbind hasked]
        simpa [Mention.renamed, hasked] using ⟨k, v, howns, hexpression, hname, hdestination⟩
    | some asked =>
        obtain ⟨qualifier, _ | given⟩ := asked
        · obtain ⟨later, hused, hlater⟩ := howns.use_renamed hkey hbind hasked hexpression
          have hne : qualifier ≠ "" := by
            rintro rfl
            exact htext hasked
          rw [hused]
          refine ⟨k, _, hlater, hexpression, ?_, hdestination⟩
          simp [Mention.renamed, hasked, hkey, Variable.reference?, hne]
        · rw [howns.use_doubled hkey hbind hasked hexpression]
          simpa [Mention.renamed, hasked] using ⟨k, v, howns, hexpression, hname, hdestination⟩
  · rw [Mention.renamed, if_neg hkey]
    exact ⟨k, v, howns.use hkey hbind, hexpression, hname, hdestination⟩

theorem trail {used : List Moment} (htrail : Trail scope used later) (h : scope.GoesBy t name)
    (hforwards : ∀ moment ∈ used, moment.mention.Forwards t) :
    later.GoesBy t (nameAfter t name used) := by
  induction htrail generalizing name with
  | done scope => exact h
  | use moment hrest ih =>
      obtain ⟨hmoment, hrest⟩ := List.forall_mem_cons.mp hforwards
      exact ih (h.use hmoment) hrest

end Scope.GoesBy

/-- What a mention of the token, which binds nothing, is written as where the token goes by
`name`. -/
structure Moment.Aliases (moment : Moment) (t : Token) (name : String) : Prop where
  plain : moment.mention.qualification? = none → moment.Writes name
  renamed : ∀ qualifier, moment.mention.qualification? = some (qualifier, none) → qualifier ≠ "" →
    moment.result? Resolve.column =
      some ⟨if name = qualifier then qualifier else name ++ " AS " ++ qualifier, qualifier, some t⟩
  doubled : ∀ qualifier given, moment.mention.qualification? = some (qualifier, some given) →
    moment.Fails (.duplicateQualification t.display qualifier)

theorem Resolve.use_of_scope {mention : Mention} {known : Vocabulary} {used : Use} {later : Scope}
    (h : known.scope.use mention = (.ok used, later)) :
    ∃ after, use mention known = .ok used after := by
  rw [use_eq, h]
  exact ⟨_, rfl⟩

theorem Moment.aliases_of_goesBy {moment : Moment} {t : Token} {name : String}
    (h : moment.known.scope.GoesBy t name)
    (hkey : moment.mention.identifier.key? = some (.token t)) (hbind : moment.mention.bind = none) :
    moment.Aliases t name := by
  obtain ⟨k, v, howns, hexpression, hname, hdestination⟩ := h
  refine ⟨fun hasked => ?_, fun qualifier hasked hne => ?_, fun qualifier given hasked => ?_⟩
  · obtain ⟨after, huse⟩ := Resolve.use_of_scope (howns.use_plain hkey hbind hasked)
    exact writes_of_use huse hname rfl
  · obtain ⟨later, hused, -⟩ := howns.use_renamed hkey hbind hasked hexpression
    obtain ⟨after, huse⟩ := Resolve.use_of_scope hused
    have hreference :
        ({ v with name := some qualifier } : Variable).reference? = some qualifier := by
      simp [Variable.reference?, hne]
    rw [column_of_use huse hreference]
    simp [Use.columnText, hname, hdestination]
  · exact ⟨_, howns.use_doubled hkey hbind hasked hexpression⟩

theorem Moment.goesBy_of_untouched {moment : Moment} {t : Token}
    (h : moment.known.scope.Untouched t)
    (hkey : moment.mention.identifier.key? = some (.token t)) (hbind : moment.mention.bind = none)
    {origin : String} {given : Option String}
    (hasked : moment.mention.qualification? = some (origin, given)) (horigin : origin ≠ "")
    (hgiven : given ≠ some "") :
    let name := given.getD origin
    moment.result? Resolve.column =
        some ⟨if origin = name then name else origin ++ " AS " ++ name, name, some t⟩ ∧
      (moment.known.scope.use moment.mention).2.GoesBy t name := by
  obtain ⟨label, later, hused, howns⟩ := h.use_token hkey hbind hasked
  obtain ⟨after, huse⟩ := Resolve.use_of_scope hused
  have hname : (⟨given, some origin, label, some t⟩ : Variable).reference? =
      some (given.getD origin) := by
    cases given <;> simp_all [Variable.reference?]
  refine ⟨?_, ?_⟩
  · rw [column_of_use huse hname]
    simp [Use.columnText]
  · rw [hused]
    exact ⟨_, _, howns, by simp [Variable.hasExpression, horigin], hname, rfl⟩

namespace Draft

/-- In a query, or a branch of a union, that begins without variables, a token is qualified where it
is first used, and from then on neither it nor its variable is bound. The first column is written as
its origin with its name. Each further qualification is written with the name that the one before
left, while a mention without one is written as that name. A qualifier and a name at once fail, and
leave the name as it was. -/
theorem alias_chain {draft : Draft} (hfresh : draft.known.scope = {}) {steps : List Step}
    {t : Token} {earlier later : List Moment} {first : Moment}
    (huses : ownUses steps draft = earlier ++ first :: later)
    (hunused : ∀ past ∈ earlier,
      past.mention.identifier.key? ≠ some (.token t) ∧ past.mention.bind ≠ some t)
    (hfirst : first.mention.identifier.key? = some (.token t)) (hbind : first.mention.bind = none)
    {origin : String} {given : Option String}
    (hasked : first.mention.qualification? = some (origin, given)) (horigin : origin ≠ "")
    (hgiven : given ≠ some "") :
    let name := given.getD origin
    first.result? Resolve.column =
        some ⟨if origin = name then name else origin ++ " AS " ++ name, name, some t⟩ ∧
      ∀ middle moment rest, later = middle ++ moment :: rest →
        (∀ past ∈ middle, past.mention.Forwards t) →
        moment.mention.identifier.key? = some (.token t) → moment.mention.bind = none →
          moment.Aliases t (nameAfter t name middle) ∧
            ∀ fault, moment.Fails fault → fault ∈ failures steps draft := by
  intro name
  have htrail := trail draft steps
  rw [hfresh, huses] at htrail
  obtain ⟨between, hearlier, hlater⟩ := htrail.split
  have hkeeps : ∀ past ∈ earlier, past.known.scope.Untouched t →
      (past.known.scope.use past.mention).2.Untouched t :=
    fun past hpast h => h.use (hunused past hpast).1 (hunused past hpast).2
  have huntouched : between.Untouched t := hearlier.keeps (·.Untouched t) hkeeps (.empty t)
  cases hlater with
  | use _ hlater =>
      obtain ⟨hcolumn, hgoes⟩ :=
        Moment.goesBy_of_untouched huntouched hfirst hbind hasked horigin hgiven
      refine ⟨hcolumn, ?_⟩
      rintro middle moment rest rfl hforwards hkey hfree
      obtain ⟨_, hmiddle, hrest⟩ := hlater.split
      have hnow := hgoes.trail hmiddle hforwards
      cases hrest with
      | use _ _ =>
          refine ⟨Moment.aliases_of_goesBy hnow hkey hfree, fun fault hfails => ?_⟩
          refine fault_mem_failures (ownUses_subset draft steps ?_) hfails
          simp [huses]

/-- A token that is qualified three times, once inside a subquery, and then by two texts at once. -/
def chainedSteps : List Step :=
  [.call (.pattern .matching [{ start := { identifier := .name "n" } }]),
    .call (.project .passing false
      [{ identifier := .ofToken ⟨1⟩, qualifier := some "count(n)", name := some "c" }]),
    .call (.condition (.comparison (.ofToken ⟨1⟩) ">" (.raw "1"))),
    .subquery [.call (.project .passing false
      [{ identifier := .ofToken ⟨1⟩, qualifier := some "d" }])],
    .call (.project .passing false [{ identifier := .ofToken ⟨1⟩, qualifier := some "e" }]),
    .call (.project .returning false
      [{ identifier := .ofToken ⟨1⟩, qualifier := some "f", name := some "g" }]),
    .call (.project .returning false [{ identifier := .ofToken ⟨1⟩ }])]

theorem alias_chain_chainedSteps :
    ∃ other first later, ownUses chainedSteps {} = [other] ++ first :: later ∧
      first.result? Resolve.column = some ⟨"count(n) AS c", "c", some ⟨1⟩⟩ ∧
      ∀ middle moment rest, later = middle ++ moment :: rest →
        moment.mention.identifier.key? = some (.token ⟨1⟩) →
          moment.Aliases ⟨1⟩ (nameAfter ⟨1⟩ "c" middle) ∧
            ∀ fault, moment.Fails fault → fault ∈ failures chainedSteps {} := by
  obtain ⟨other, first, later, huses⟩ :
    ∃ other first later, ownUses chainedSteps {} = [other] ++ first :: later := ⟨_, _, _, rfl⟩
  have hother : ∀ past ∈ (ownUses chainedSteps {}).take 1,
      past.mention.identifier.key? ≠ some (.token ⟨1⟩) ∧ past.mention.bind ≠ some ⟨1⟩ := by decide
  have hfirst : ∀ past ∈ (ownUses chainedSteps {})[1]?,
      past.mention.identifier.key? = some (.token ⟨1⟩) ∧ past.mention.bind = none ∧
        past.mention.qualification? = some ("count(n)", some "c") := by decide
  have hlater : ∀ past ∈ (ownUses chainedSteps {}).drop 2,
      past.mention.Forwards ⟨1⟩ ∧ past.mention.bind = none := by decide
  rw [huses] at hother hfirst hlater
  obtain ⟨hkey, hbind, hasked⟩ := hfirst first rfl
  obtain ⟨hcolumn, hchain⟩ :=
    alias_chain rfl huses hother hkey hbind hasked (by decide) (by decide)
  refine ⟨other, first, later, huses, hcolumn, ?_⟩
  rintro middle moment rest rfl hkeyNow
  exact hchain middle moment rest rfl (fun past hpast => (hlater past (by simp [hpast])).1)
    hkeyNow (hlater moment (by simp)).2

/-- A token that is qualified, and then used in a branch of a union. -/
def branchedSteps : List Step :=
  [.call (.project .passing false [{ identifier := .ofToken ⟨1⟩, qualifier := some "a" }]),
    .union .distinct [[.call (.project .returning false [{ identifier := .ofToken ⟨1⟩ }])]]]

/-- The branch does not know the name that the token has outside. And an empty name refers to
nothing. -/
theorem alias_unknown_branchedSteps :
    (∃ first moment, uses branchedSteps {} = [first, moment] ∧
      first.mention = { identifier := .ofToken ⟨1⟩, qualifier := some "a" } ∧
      first.result? Resolve.column = some ⟨"a", "a", some ⟨1⟩⟩ ∧
      moment.mention = { identifier := .ofToken ⟨1⟩ } ∧
      moment.result? Resolve.column = none ∧
      (run branchedSteps {}).compile = .error (.unresolvedIdentifier "#1")) ∧
    (run [.call (.project .returning false
      [{ identifier := .ofToken ⟨1⟩, qualifier := some "a", name := some "" }])] {}).compile =
        .error (.unresolvedIdentifier "#1") :=
  ⟨⟨_, _, rfl, rfl, by decide, rfl, by decide, rfl⟩, rfl⟩

end Draft

end GraphQuery
