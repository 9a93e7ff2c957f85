import GraphQuery.Proofs.Scope.FieldText
import GraphQuery.Proofs.Scope.Retirement

/-! # Tokens of fields

A token that has been bound to a field leads to the field's variable and reads it as it is. The
text it finds there is the one that the field was called by when it was last resolved itself,
whatever its owner is called by now. -/

namespace GraphQuery

namespace Scope

/-! ## Texts that were read -/

/-- What the operation calls the field, if it is a resolution of it. -/
def Operation.read? (scope : Scope) (owner : Token) (field : String) :
    Operation → Option (Option String)
  | .resolve (.field t path) =>
      if t = owner ∧ path.field = field ∧ owner ∉ scope.retired then
        some (scope.propertyText? owner path.property)
      else none
  | _ => none

/-- What the last resolution of the field called it. -/
def lastRead? (owner : Token) (field : String) :
    Scope → List Operation → Option (Option String)
  | _, [] => none
  | scope, operation :: rest =>
      (lastRead? owner field (scope.after operation) rest).or (operation.read? scope owner field)

variable {scope later : Scope} {owner : Token} {field : String}
  {read? : Option (Option String)} {identifier : Identifier} {slot slot' : Slot}

/-- The variable of the field has no text but the one it was read with, and there is none before it
was read. -/
def Recalls (scope : Scope) (owner : Token) (field : String) : Option (Option String) → Prop
  | none => scope.find? (.field owner field) = none
  | some text? => ∃ k ∈ scope.find? (.field owner field), k ∉ scope.pinned ∧
      ∃ v ∈ scope.at? k, v.name = none ∧ v.reference? = text?

namespace Recalls

/-! ## Operations on other variables -/

theorem of_same (h : scope.Recalls owner field read?)
    (hfind : later.find? (.field owner field) = scope.find? (.field owner field))
    (hvariable : ∀ k ∈ scope.find? (.field owner field), (k ∈ later.pinned ↔ k ∈ scope.pinned) ∧
      ∀ v ∈ scope.at? k, ∃ v' ∈ later.at? k, v'.name = v.name ∧ v'.expression = v.expression) :
    later.Recalls owner field read? := by
  cases read? with
  | none => exact hfind.trans h
  | some text? =>
      obtain ⟨k, hk, hpinned, v, hv, hname, hreference⟩ := h
      obtain ⟨hpin, hat⟩ := hvariable k hk
      obtain ⟨v', hv', hsame, htext⟩ := hat v hv
      refine ⟨k, hfind.trans hk, fun h => hpinned (hpin.mp h), v', hv', hsame.trans hname, ?_⟩
      rwa [Variable.reference?, hsame, htext, ← Variable.reference?]

theorem of_at? (h : scope.Recalls owner field read?)
    (hfind : later.find? (.field owner field) = scope.find? (.field owner field))
    (hvariable : ∀ k ∈ scope.find? (.field owner field), (k ∈ later.pinned ↔ k ∈ scope.pinned) ∧
      later.at? k = scope.at? k) : later.Recalls owner field read? :=
  h.of_same hfind fun k hk =>
    ⟨(hvariable k hk).1, fun v hv => ⟨v, (hvariable k hk).2.trans hv, rfl, rfl⟩⟩

/-- Of the identifiers that lead to the field's variable only the field itself refreshes it. -/
theorem resolve_other (h : scope.Recalls owner field read?) (hindexed : scope.Indexed)
    {resolution : Resolution} (hresolves : scope.Resolves identifier resolution later)
    (hother : identifier.key? ≠ some (.field owner field)) :
    later.Recalls owner field read? := by
  cases hresolves with
  | apart hkey => exact h
  | @found own i hkey hfind =>
      refine h.of_at? (find?_modifyAt ..) fun k hk => ⟨Iff.rfl, ?_⟩
      rw [refreshed, at?_modifyAt]
      split
      · next heq =>
          subst heq
          cases identifier with
          | field other path =>
              cases hkey
              have hsame := hindexed.distinct rfl rfl hfind hk
              exact absurd (congrArg some hsame) hother
          | _ => exact Option.map_id'
      · rfl
  | @introduced own hkey hfind =>
      have hown : Key.field owner field ≠ own := by
        rintro rfl
        exact hother hkey
      refine h.of_at? ((find?_introduce ..).trans (if_neg hown)) fun k hk => ⟨?_, ?_⟩
      · rw [pinned_introduce]
      · rw [at?_introduce, if_neg (Nat.ne_of_lt (hindexed.lt_size hk))]

theorem qualify (h : scope.Recalls owner field read?)
    (hqualifies : scope.Qualifies slot slot' later)
    (hslot : ∀ k ∈ scope.find? (.field owner field), slot ≠ .registered k) :
    later.Recalls owner field read? :=
  h.of_at? (hqualifies.find? _) fun k hk =>
    ⟨hqualifies.pinned_of_ne (hslot k hk), hqualifies.at?_of_ne (hslot k hk)⟩

theorem rebind (h : scope.Recalls owner field read?) (hindexed : scope.Indexed) {token : Token}
    (hrebinds : scope.Rebinds slot identifier token slot' later) :
    later.Recalls owner field read? := by
  refine h.of_same (hrebinds.find?_field owner field) fun k hk =>
    ⟨by rw [hrebinds.pinned], fun v hv => ?_⟩
  rcases hrebinds.at?_cases (hindexed.lt_size hk) with hat | ⟨-, hat⟩
  · exact ⟨v, hat.trans hv, rfl, rfl⟩
  · exact ⟨{ v with destination := some token }, by rw [hat, hv]; rfl, rfl, rfl⟩

/-! ## Resolutions of the field -/

theorem reference?_of_property (scope : Scope) (owner : Token) (property : String) {v : Variable}
    (hname : v.name = none) :
    Variable.reference? { v with expression := scope.propertyText? owner property } =
      scope.propertyText? owner property := by
  rw [Variable.reference?, hname]
  exact propertyText?_ne_empty scope owner property

theorem resolve_own (h : scope.Recalls owner field read?) (hindexed : scope.Indexed)
    {path : FieldPath} (hpath : path.field = field) :
    (scope.resolved (.field owner path)).2.Recalls owner field
      (some (scope.propertyText? owner path.property)) := by
  subst hpath
  cases hfind : scope.find? (.field owner path.field) with
  | none =>
      simp only [resolved, Identifier.key?, hfind]
      refine ⟨scope.size, ?_, ?_, scope.beginning (.field owner path), ?_, rfl, ?_⟩
      · exact (find?_introduce ..).trans (if_pos rfl)
      · rw [pinned_introduce]
        exact fun hpinned => Nat.lt_irrefl _ (hindexed.pinned_lt hpinned)
      · exact (at?_introduce ..).trans (if_pos rfl)
      · exact reference?_of_property (v := {}) scope owner path.property rfl
  | some k =>
      simp only [resolved, Identifier.key?, hfind]
      cases read? with
      | none => cases hfind.symm.trans h
      | some text? =>
          obtain ⟨i, hi, hpinned, v, hv, hname, -⟩ := h
          cases hfind.symm.trans hi
          have hrefresh : scope.refresh (.field owner path) k v =
              { v with expression := scope.propertyText? owner path.property } := by
            simp [refresh, hpinned, hname]
          refine ⟨k, (find?_modifyAt ..).trans hfind, hpinned,
            { v with expression := scope.propertyText? owner path.property }, ?_, hname, ?_⟩
          · rw [refreshed, Option.mem_def, at?_modifyAt, if_pos rfl, hv, Option.map_some, hrefresh]
          · exact reference?_of_property scope owner path.property hname

theorem resolve (h : scope.Recalls owner field read?) (hindexed : scope.Indexed)
    (identifier : Identifier) :
    (scope.after (.resolve identifier)).Recalls owner field
      (((Operation.resolve identifier).read? scope owner field).or read?) := by
  by_cases hown : identifier.key? = some (.field owner field)
  · obtain ⟨path, rfl⟩ := Identifier.eq_field_of_key? hown
    have hpath : path.field = field := by
      cases hown
      rfl
    have htoken : (Identifier.field owner path).token? = some owner := rfl
    by_cases hlive : owner ∈ scope.retired
    · simpa [Scope.after, resolve_retired hlive htoken, Operation.read?, hlive] using h
    · simpa [Scope.after, resolve_of_live htoken hlive, Operation.read?, hlive, hpath] using
        h.resolve_own hindexed hpath
  · have hnone : (Operation.resolve identifier).read? scope owner field = none := by
      cases identifier with
      | field t path =>
          refine if_neg ?_
          rintro ⟨rfl, rfl, -⟩
          exact hown rfl
      | _ => rfl
    rw [hnone, Option.none_or, Scope.after]
    cases hresult : scope.resolve identifier with
    | error fault => exact h
    | ok result => exact h.resolve_other hindexed (resolves_of_ok hresult) hown

/-! ## Histories -/

theorem after (h : scope.Recalls owner field read?) (hindexed : scope.Indexed)
    {operation : Operation} (hgiven : operation.given? scope (.field owner field) = none) :
    (scope.after operation).Recalls owner field
      ((operation.read? scope owner field).or read?) := by
  cases operation with
  | resolve identifier => exact h.resolve hindexed identifier
  | qualify slot identifier qualifier name =>
      simp only [Operation.given?] at hgiven
      simp only [Scope.after, Operation.read?, Option.none_or]
      cases hresult : scope.qualify slot identifier qualifier name with
      | error fault => exact h
      | ok result =>
          simp only [hresult, ite_eq_right_iff, reduceCtorEq, imp_false] at hgiven
          refine h.qualify (qualifies_of_ok hresult) fun k hk heq => hgiven ?_
          exact Option.map_eq_some_iff.mpr ⟨k, hk, heq.symm⟩
  | rebind slot identifier token =>
      simp only [Scope.after, Operation.read?, Option.none_or]
      cases hresult : scope.rebind slot identifier token with
      | error fault => exact h
      | ok result => exact h.rebind hindexed (rebinds_of_ok hresult)

theorem afterAll (h : scope.Recalls owner field read?) (hindexed : scope.Indexed)
    {operations : List Operation}
    (hheld : Along (fun scope operation => operation.Held scope) scope operations)
    (hgiven : lastGiven? (.field owner field) scope operations = none) :
    (scope.afterAll operations).Recalls owner field
      ((lastRead? owner field scope operations).or read?) := by
  induction operations generalizing scope read? with
  | nil => exact h
  | cons operation rest ih =>
      obtain ⟨hrest, hfirst⟩ := Option.or_eq_none_iff.mp hgiven
      have hafter := ih (h.after hindexed hfirst) (hindexed.after hheld.1) hheld.2 hrest
      rwa [← Option.or_assoc] at hafter

theorem follows (h : scope.Recalls owner field read?) : scope.Follows (.field owner field) := by
  intro k hk
  cases read? with
  | none => cases hk.symm.trans h
  | some text? =>
      obtain ⟨i, hi, hpinned, v, hv, hname, -⟩ := h
      cases hk.symm.trans hi
      refine ⟨hpinned, fun w hw => ?_⟩
      cases hv.symm.trans hw
      exact hname

theorem reference?_eq (h : scope.Recalls owner field read?) {k : Nat}
    (hfind : scope.find? (.field owner field) = some k) :
    (scope.get (.registered k)).reference? = read?.join := by
  cases read? with
  | none => cases hfind.symm.trans h
  | some text? =>
      obtain ⟨i, hi, -, v, hv, -, hreference⟩ := h
      cases hfind.symm.trans hi
      have hv : scope.at? k = some v := hv
      rw [get, hv]
      exact hreference

end Recalls

/-! ## The token and the field -/

/-- A field that was given no text has two readings. Its token reads the text that the last
resolution of the field left, and leaves it. The field itself is called by the property of what its
owner is called at the time, and the token reads that from then on. -/
theorem field_token_reads_last {history : List Operation}
    (hheld : Along (fun scope operation => operation.Held scope) {} history)
    {owner t : Token} {path : FieldPath} {k : Nat}
    (hlive : owner ∉ (afterAll {} history).retired)
    (hfield : (afterAll {} history).find? (.field owner path.field) = some k)
    (htoken : (afterAll {} history).find? (.token t) = some k)
    (hgiven : lastGiven? (.field owner path.field) {} history = none)
    (descriptor : Option Descriptor) :
    (afterAll {} history).resolve (.token t descriptor) =
        .ok (⟨.registered k, false⟩, afterAll {} history) ∧
      ((afterAll {} history).get (.registered k)).reference? =
        (lastRead? owner path.field {} history).join ∧
      ∃ found, (afterAll {} history).resolve (.field owner path) =
          .ok (⟨.registered k, false⟩, found) ∧
        (found.get (.registered k)).reference? =
          ((afterAll {} history).ownerText? owner).map (fun text => text ++ "." ++ path.property) ∧
        found.resolve (.token t descriptor) = .ok (⟨.registered k, false⟩, found) := by
  have hindexed : (afterAll {} history).Indexed :=
    afterAll_keeps (fun _ _ hscope hoperation => hscope.after hoperation) .empty hheld
  have hrecalls : (afterAll {} history).Recalls owner path.field
      (lastRead? owner path.field {} history) := by
    have hbegin : Recalls {} owner path.field none := find?_empty _
    have hafter := hbegin.afterAll .empty hheld hgiven
    rwa [Option.or_none] at hafter
  have hleads : (afterAll {} history).Leads t k := by
    refine ⟨fun hretired => ?_, htoken⟩
    cases htoken.symm.trans (Parted.empty.afterAll history t hretired)
  have hstands : (afterAll {} history).Stands (.field owner path.field) none := hrecalls.follows
  obtain ⟨resolution, found, hfound, hreference⟩ := hstands.resolve_field_reference hindexed hlive
  have hresolves := resolves_of_ok hfound
  have hslot : resolution = ⟨.registered k, false⟩ := by
    obtain ⟨-, hresolved⟩ := resolve_eq_ok_iff.mp hfound
    simp only [resolved, Identifier.key?, hfield] at hresolved
    exact (congrArg Prod.fst hresolved).symm
  subst hslot
  exact ⟨hleads.resolve_eq descriptor, hrecalls.reference?_eq hfield, found, hfound, hreference,
    (hleads.resolve hresolves).resolve_eq descriptor⟩

/-- A field that is bound to a token before its owner is renamed. -/
def renamedOwnerHistory : List Operation :=
  [.resolve (.token ⟨1⟩ none), .qualify (.registered 0) (.token ⟨1⟩ none) "n" none,
    .resolve (.field ⟨1⟩ ⟨"age", "age"⟩),
    .rebind (.registered 1) (.field ⟨1⟩ ⟨"age", "age"⟩) ⟨2⟩,
    .qualify (.registered 0) (.token ⟨1⟩ none) "m" none]

theorem field_token_reads_last_renamedOwnerHistory :
    ((afterAll {} renamedOwnerHistory).get (.registered 1)).reference? = some "n.age" ∧
      ∃ found, (afterAll {} renamedOwnerHistory).resolve (.field ⟨1⟩ ⟨"age", "years"⟩) =
          .ok (⟨.registered 1, false⟩, found) ∧
        (found.get (.registered 1)).reference? = some "m.years" ∧
        found.resolve (.token ⟨2⟩ none) = .ok (⟨.registered 1, false⟩, found) := by
  obtain ⟨-, hlast, found, hfound, hreference, hlater⟩ :=
    @field_token_reads_last renamedOwnerHistory (by decide) ⟨1⟩ ⟨2⟩ ⟨"age", "years"⟩ 1 (by decide)
      (by decide) (by decide) (by decide) none
  exact ⟨hlast.trans (by decide), found, hfound, hreference.trans (by decide), hlater⟩

/-- The token and the field give different texts for the same variable. -/
theorem field_token_lags_renamedOwnerHistory :
    Along (fun scope operation => operation.Held scope) {} renamedOwnerHistory ∧
      (∀ operation ∈ renamedOwnerHistory, "" ∉ operation.texts) ∧
      (Token.mk 1) ∉ (afterAll {} renamedOwnerHistory).retired ∧
      lastGiven? (.field ⟨1⟩ "age") {} renamedOwnerHistory = none ∧
      ∃ scope found, (afterAll {} renamedOwnerHistory).resolve (.token ⟨2⟩ none) =
          .ok (⟨.registered 1, false⟩, scope) ∧
        (scope.get (.registered 1)).reference? = some "n.age" ∧
        (afterAll {} renamedOwnerHistory).resolve (.field ⟨1⟩ ⟨"age", "age"⟩) =
          .ok (⟨.registered 1, false⟩, found) ∧
        (found.get (.registered 1)).reference? = some "m.age" :=
  ⟨by decide, by decide, by decide, by decide, _, _, rfl, by decide, rfl, by decide⟩

end Scope

end GraphQuery
