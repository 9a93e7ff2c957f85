import GraphQuery.Proofs.Draft.Naming
import GraphQuery.Proofs.Draft.QueryText
import GraphQuery.Proofs.Draft.Slots

/-! # Duplicate qualifications

Query text that is given a qualifier and a name is refused when the mention is made. If the name
comes later, the call that uses the mention is refused for the same reason: in whatever state its
query is, the variable of the text still has the text as its expression. -/

namespace GraphQuery

/-! ## Making a mention -/

namespace Mention

variable (mention : Mention)

theorem name_add (detail : Detail) :
    (mention.add detail).name.isSome ↔ mention.name.isSome ∨ ∃ n, .name n = detail := by
  cases detail <;> simp [add]

theorem name_addAll (details : List Detail) :
    (mention.addAll details).name.isSome ↔ mention.name.isSome ∨ ∃ n, .name n ∈ details := by
  induction details generalizing mention with
  | nil => simp [addAll]
  | cons first rest ih =>
      refine (ih (mention.add first)).trans ?_
      simp only [name_add, or_assoc, List.mem_cons, exists_or]

/-- Only query text is refused a qualifier, and only besides a name. -/
theorem qualified_eq_error_iff {identifier : Identifier} {qualifier : String}
    {details : List Detail} {fault : Fault} :
    qualified identifier qualifier details = .error fault ↔
      ∃ text ∈ identifier.text?, (∃ n, .name n ∈ details) ∧
        fault = .duplicateQualification text qualifier := by
  have hname := name_addAll { identifier } details
  simp only [Option.isSome_none, Bool.false_eq_true, false_or] at hname
  rw [← hname, qualified]
  cases identifier.text? with
  | none => simp
  | some text => cases (addAll { identifier } details).name <;> simp [eq_comm]

end Mention

theorem Identifier.display_of_text? {identifier : Identifier} {text : String}
    (h : identifier.text? = some text) : identifier.display = text := by
  cases identifier with
  | name _ | raw _ =>
      cases h
      rfl
  | _ => cases h

/-! ## The variable of a text -/

namespace Scope

variable {scope later : Scope} {text : String} {slot slot' : Slot} {identifier : Identifier}

/-- The variable of the text has the text as its expression, whatever its alias. -/
def Expresses (scope : Scope) (text : String) : Prop :=
  scope.Has (.text text) fun v => v.expression = some text

namespace Expresses

theorem resolve (h : scope.Expresses text) {resolution : Resolution}
    (hresolves : scope.Resolves identifier resolution later) : later.Expresses text :=
  Has.resolve_text h rfl hresolves

/-- A variable with an expression only takes an alias. -/
theorem qualify (h : scope.Expresses text) (hsome : text ≠ "") (hheld : slot.Held scope)
    {qualifier : String} {name : Option String} {qualified : Qualified}
    (hqualify : scope.qualify slot identifier qualifier name = .ok (qualified, slot', later)) :
    later.Expresses text := by
  have hqualifies := qualifies_of_ok hqualify
  refine ⟨h.indexed.qualify hheld hqualifies, fun {k w} hfind hw => ?_⟩
  rw [hqualifies.find?] at hfind
  obtain ⟨v, hv, hexpression⟩ := Has.exists_variable h hfind
  by_cases hslot : slot = .registered k
  · subst hslot
    rcases qualify_registered hv hqualify with ⟨-, -, hat⟩ | ⟨hempty, -, -⟩
    · cases hat.symm.trans hw
      exact hexpression
    · exact absurd (by simpa [Variable.hasExpression, hexpression] using hsome) hempty
  · rw [hqualifies.at?_of_ne hslot, hv] at hw
    cases hw
    exact hexpression

theorem rebind (h : scope.Expresses text) (hheld : slot.Held scope) {token : Token}
    (hrebinds : scope.Rebinds slot identifier token slot' later) : later.Expresses text :=
  Has.rebind h hheld hrebinds (fun heq => by cases heq) fun _ _ _ _ hv => hv

theorem after (h : scope.Expresses text) (hsome : text ≠ "") {operation : Operation}
    (hheld : operation.Held scope) : (scope.after operation).Expresses text := by
  revert hheld
  refine after_ok_cases
    (motive := fun operation later => operation.Held scope → later.Expresses text)
    ?_ ?_ ?_ ?_ operation
  · exact fun _ _ => h
  · exact fun hresolve _ => h.resolve (resolves_of_ok hresolve)
  · exact fun hqualify hheld => h.qualify hsome (hheld _ rfl) hqualify
  · exact fun hrebind hheld => h.rebind (hheld _ rfl) (rebinds_of_ok hrebind)

end Expresses

theorem qualify_duplicate {qualifier n : String} (h : (scope.get slot).hasExpression) :
    scope.qualify slot identifier qualifier (some n) =
      .error (.duplicateQualification identifier.display qualifier) :=
  if_pos h

/-- It makes no difference whether the variable itself is to be qualified or a copy. -/
theorem Expresses.use_fails (h : scope.Expresses text) (hsome : text ≠ "") {mention : Mention}
    (htext : mention.identifier.text? = some text) {qualifier n : String}
    (hqualifier : mention.qualifier = some qualifier) (hname : mention.name = some n) :
    ∃ later, scope.use mention = (.error (.duplicateQualification text qualifier), later) := by
  obtain ⟨resolution, resolved, hresolve⟩ := scope.exists_resolve_text htext
  have hresolves := resolves_of_ok hresolve
  have hresolved : resolved.Expresses text := h.resolve hresolves
  obtain ⟨k, hslot, hfind⟩ := hresolves.leads (Identifier.key?_eq_text_iff.mpr htext)
  obtain ⟨v, hv, hexpression⟩ := Has.exists_variable hresolved hfind
  have hfound : (resolved.get (resolved.slotFor mention resolution.slot)).hasExpression := by
    have hsame : resolved.get (resolved.slotFor mention resolution.slot) = v := by
      rw [hslot, slotFor]
      split <;> simp [get, hv]
    rw [hsame]
    simpa [Variable.hasExpression, hexpression] using hsome
  refine ⟨resolved, ?_⟩
  simp only [use, hresolve, qualifyBy, Mention.qualification?, hqualifier, hname,
    qualify_duplicate hfound, Identifier.display_of_text? htext]
  rfl

end Scope

theorem Registry.Reaches.expresses {registry : Registry} (h : Registry.Reaches {} registry)
    {text : String} (hsome : text ≠ "") : registry.scope.Expresses text := by
  induction h with
  | refl => exact .empty _ _
  | after hreaches hadmits ih =>
      exact ih.after hsome (hadmits.held (Registry.Intact.fresh.reaches hreaches))

namespace Draft

variable {draft : Draft}

theorem call_of_fails {call : Call} {moment : Moment} {fault : Fault}
    (hmoment : moment ∈ draft.callUses call) (hfails : moment.Fails fault) :
    ∃ known, draft.call call = { draft with known }.fail fault := by
  obtain ⟨after, hresolving⟩ := resolving_of_fails (.clause call) hmoment hfails
  obtain ⟨known, rfl⟩ := resolving_known hresolving
  exact ⟨known, by simp only [Draft.call, hresolving]⟩

/-- Each use in a call finds what operations on slots that were handed out have made of a scope. -/
theorem Arises.reaches_use (h : draft.Arises) {call : Call} {moment : Moment}
    (hmoment : moment ∈ draft.callUses call) :
    ∃ slots, Registry.Reaches {} ⟨moment.known.scope, slots⟩ := by
  obtain ⟨slots, hdraft⟩ := h.reaches
  obtain ⟨earlier, -, hearlier, -⟩ := (trail_call draft call).at_use hmoment
  obtain ⟨between, hbetween⟩ := hearlier.reaches slots
  exact ⟨between, hdraft.trans hbetween⟩

/-- Text that is not empty is refused a qualifier besides a name, whether that is found when the
mention is made or only when it is used, and with the same fault. At every use the variable of the
text has the text as its expression, so that it is the name that is too much. It does not matter
whether the mention is the first that the call uses, as long as those before it do not fail. -/
theorem duplicate_checks_agree {identifier : Identifier} {text : String}
    (htext : identifier.text? = some text) (hsome : text ≠ "") (qualifier : String) :
    (∀ details, (∃ n, .name n ∈ details) →
      Mention.qualified identifier qualifier details =
        .error (.duplicateQualification text qualifier)) ∧
    (∀ registry, Registry.Reaches {} registry →
      ∀ k, registry.scope.byText.get? text = some k →
        ∃ v, registry.scope.at? k = some v ∧ v.expression = some text) ∧
    ∀ draft : Draft, draft.Arises → draft.fault = none →
      ∀ call, ∀ moment ∈ draft.callUses call, moment.mention.identifier = identifier →
        moment.mention.qualifier = some qualifier → (∃ n, moment.mention.name = some n) →
          ∃ known, draft.call call =
            { draft with known, fault := some (.duplicateQualification text qualifier) } := by
  refine ⟨fun details hname => ?_, fun registry hregistry k hfind => ?_, ?_⟩
  · exact Mention.qualified_eq_error_iff.mpr ⟨text, htext, hname, rfl⟩
  · exact Scope.Has.exists_variable (hregistry.expresses hsome) hfind
  · rintro draft harises hfault call moment hmoment rfl hqualifier ⟨n, hname⟩
    obtain ⟨slots, hreaches⟩ := harises.reaches_use hmoment
    have hfails : moment.Fails (.duplicateQualification text qualifier) :=
      (hreaches.expresses hsome).use_fails hsome htext hqualifier hname
    obtain ⟨known, hcall⟩ := call_of_fails hmoment hfails
    refine ⟨known, hcall.trans ?_⟩
    rw [fail, hfault]
    rfl

/-- The variable of a text that was bound to a token, and was given an alias through that. -/
def renamedText : Draft :=
  run [.token,
    .call (.project .passing false [{ identifier := .name "n", bind := some ⟨1⟩ }]),
    .call (.project .passing false [{ identifier := .ofToken ⟨1⟩, qualifier := some "m" }])] {}

/-- The text with a qualifier, and with a name that came later. -/
def lateName : Mention where
  identifier := .name "n"
  qualifier := some "q"
  name := some "c"

theorem duplicate_checks_agree_renamedText :
    Mention.qualified (.name "n") "q" [.name "c"] = .error (.duplicateQualification "n" "q") ∧
    (Mention.qualified (.name "n") "q" []).map (·.add (.name "c")) = .ok lateName ∧
    (∃ v, renamedText.known.scope.at? 0 = some v ∧ v.expression = some "n") ∧
    (∃ known, renamedText.call (.project .returning false [lateName]) =
      { renamedText with known, fault := some (.duplicateQualification "n" "q") }) ∧
    ∃ known, renamedText.call (.project .returning false [{ lateName with bind := some ⟨2⟩ }]) =
      { renamedText with known, fault := some (.duplicateQualification "n" "q") } := by
  have harises : renamedText.Arises := .step (.step (.step (.fresh {} {}) _) _) _
  have hfault : renamedText.fault = none := by decide
  obtain ⟨hearly, hvariable, hlate⟩ :=
    @duplicate_checks_agree (.name "n") "n" rfl (by decide) "q"
  obtain ⟨slots, hreaches⟩ := harises.reaches
  have hfind : renamedText.known.scope.byText.get? "n" = some 0 := by decide
  refine ⟨hearly _ ⟨"c", List.mem_singleton_self _⟩, rfl, hvariable _ hreaches 0 hfind, ?_, ?_⟩
  · exact hlate _ harises hfault _ _ List.mem_cons_self rfl rfl ⟨"c", rfl⟩
  · exact hlate _ harises hfault _ _ List.mem_cons_self rfl rfl ⟨"c", rfl⟩

end Draft

end GraphQuery
