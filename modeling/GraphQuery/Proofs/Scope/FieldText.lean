import GraphQuery.Proofs.Scope.Keyed

/-! # Texts of fields

A field is called by the property of whatever its owner is called. Once it is given a text of its
own it is called by that, whatever becomes of its owner, until it is given another. -/

namespace GraphQuery

namespace Scope

/-! ## Given texts -/

namespace Operation

/-- The texts that an operation is to give. -/
def texts : Operation → List String
  | .qualify _ _ qualifier name => qualifier :: name.toList
  | .resolve _ | .rebind _ _ _ => []

/-- The text that the variable of a key is called by once the operation has qualified it. -/
def given? (scope : Scope) (key : Key) : Operation → Option String
  | .qualify slot identifier qualifier name =>
      match scope.qualify slot identifier qualifier name with
      | .ok _ =>
          if (scope.find? key).map Slot.registered = some slot then some (name.getD qualifier)
          else none
      | .error _ => none
  | .resolve _ | .rebind _ _ _ => none

end Operation

/-- The last text that the operations give the variable of a key. -/
def lastGiven? (key : Key) : Scope → List Operation → Option String
  | _, [] => none
  | scope, operation :: rest =>
      (lastGiven? key (scope.after operation) rest).or (operation.given? scope key)

variable {scope later : Scope} {key : Key} {text : String} {identifier : Identifier}
  {slot slot' : Slot}

/-- The variable of the key, if there is one, has been given no text. -/
def Follows (scope : Scope) (key : Key) : Prop :=
  ∀ k ∈ scope.find? key, k ∉ scope.pinned ∧ ∀ v ∈ scope.at? k, v.name = none

/-- The variable of the key has been given the text. -/
def Fixed (scope : Scope) (key : Key) (text : String) : Prop :=
  ∃ k ∈ scope.find? key, ∃ v ∈ scope.at? k,
    v.reference? = some text ∧ v.hasExpression ∧ (k ∈ scope.pinned ∨ v.name.isSome)

/-- The variable of the key has been given this text, or none. -/
def Stands (scope : Scope) (key : Key) : Option String → Prop
  | some text => scope.Fixed key text
  | none => scope.Follows key

/-! ## Operations that give no text -/

/-- The variable of the key gets no text: its name stays, and its expression too unless it still
follows an owner. -/
structure Untold (scope later : Scope) (key : Key) : Prop where
  begun : scope.find? key = none → later.Follows key
  find? : ∀ k ∈ scope.find? key, later.find? key = some k
  pinned : ∀ k ∈ scope.find? key, (k ∈ later.pinned ↔ k ∈ scope.pinned)
  at? : ∀ k ∈ scope.find? key, ∃ change : Variable → Variable,
    later.at? k = (scope.at? k).map change ∧ ∀ v, (change v).name = v.name ∧
      (k ∈ scope.pinned ∨ v.name.isSome → (change v).expression = v.expression)

namespace Untold

theorem follows (h : scope.Untold later key) (hfollows : scope.Follows key) :
    later.Follows key := by
  cases hfind : scope.find? key with
  | none => exact h.begun hfind
  | some k =>
      intro i hi
      cases (h.find? k hfind).symm.trans hi
      obtain ⟨hpinned, hname⟩ := hfollows k hfind
      obtain ⟨change, hat, hsame⟩ := h.at? k hfind
      refine ⟨fun hlater => hpinned ((h.pinned k hfind).mp hlater), fun v hv => ?_⟩
      obtain ⟨v', hv', rfl⟩ := Option.map_eq_some_iff.mp (hat.symm.trans hv)
      exact (hsame v').1.trans (hname v' hv')

theorem fixed (h : scope.Untold later key) (hfixed : scope.Fixed key text) :
    later.Fixed key text := by
  obtain ⟨k, hfind, v, hv, hreference, hexpression, hheld⟩ := hfixed
  obtain ⟨change, hat, hsame⟩ := h.at? k hfind
  have hv : scope.at? k = some v := hv
  have hname : (change v).name = v.name := (hsame v).1
  have htext : (change v).expression = v.expression := (hsame v).2 hheld
  refine ⟨k, h.find? k hfind, change v, by rw [hat, hv]; rfl, ?_, ?_, ?_⟩
  · simpa only [Variable.reference?, hname, htext] using hreference
  · simpa only [Variable.hasExpression, htext] using hexpression
  · rwa [h.pinned k hfind, hname]

theorem stands (h : scope.Untold later key) {text? : Option String}
    (hstands : scope.Stands key text?) : later.Stands key text? := by
  cases text? with
  | none => exact h.follows hstands
  | some text => exact h.fixed hstands

/-- An operation that keeps the keys and the variable of this one. -/
theorem of_same (hfind : later.find? key = scope.find? key)
    (hpinned : ∀ k ∈ scope.find? key, (k ∈ later.pinned ↔ k ∈ scope.pinned))
    (hat : ∀ k ∈ scope.find? key, later.at? k = scope.at? k) : scope.Untold later key where
  begun hnone k hk := by
    have hk : later.find? key = some k := hk
    rw [hfind, hnone] at hk
    cases hk
  find? k hk := hfind.trans hk
  pinned := hpinned
  at? k hk := ⟨id, by rw [hat k hk, Option.map_id]; rfl, fun v => ⟨rfl, fun _ => rfl⟩⟩

theorem refl (scope : Scope) (key : Key) : scope.Untold scope key :=
  of_same rfl (fun _ _ => Iff.rfl) fun _ _ => rfl

theorem resolve (hindexed : scope.Indexed) {resolution : Resolution}
    (hresolves : scope.Resolves identifier resolution later) : scope.Untold later key := by
  cases hresolves with
  | apart hkey => exact refl scope key
  | @found own i hkey hfind =>
      refine ⟨fun hnone k hk => ?_, fun k hk => ?_, fun k hk => Iff.rfl, fun k hk => ?_⟩
      · have hk : (scope.refreshed identifier i).find? key = some k := hk
        rw [refreshed, find?_modifyAt, hnone] at hk
        cases hk
      · exact (find?_modifyAt _ _ key).trans hk
      · by_cases hi : k = i
        · subst hi
          refine ⟨scope.refresh identifier k, (at?_modifyAt ..).trans (if_pos rfl), fun v => ?_⟩
          cases identifier with
          | field owner path =>
              simp only [refresh]
              split
              · exact ⟨rfl, fun _ => rfl⟩
              · next hfree => exact ⟨rfl, fun hheld => absurd hheld hfree⟩
          | _ => exact ⟨rfl, fun _ => rfl⟩
        · exact ⟨id, by simp [refreshed, hi], fun v => ⟨rfl, fun _ => rfl⟩⟩
  | @introduced own hkey hfind =>
      have hother : ∀ k ∈ scope.find? key, key ≠ own := by
        rintro k hk rfl
        cases hfind.symm.trans hk
      refine ⟨fun hnone k hk => ?_, fun k hk => ?_, fun k hk => ?_, fun k hk => ?_⟩
      · have hk : (scope.introduce own (scope.beginning identifier)).find? key = some k := hk
        rw [find?_introduce] at hk
        split at hk
        · cases hk
          refine ⟨fun hpinned => ?_, fun v hv => ?_⟩
          · rw [pinned_introduce] at hpinned
            exact Nat.lt_irrefl _ (hindexed.pinned_lt hpinned)
          · have hv : _ = some v := hv
            rw [at?_introduce, if_pos rfl] at hv
            cases hv
            cases identifier <;> rfl
        · cases hnone.symm.trans hk
      · exact (find?_introduce ..).trans ((if_neg (hother k hk)).trans hk)
      · rw [pinned_introduce]
      · have hne : k ≠ scope.size := Nat.ne_of_lt (hindexed.lt_size hk)
        exact ⟨id, by simp [hne], fun v => ⟨rfl, fun _ => rfl⟩⟩

/-- Qualifying another variable. -/
theorem qualify (hqualifies : scope.Qualifies slot slot' later)
    (hslot : ∀ k ∈ scope.find? key, slot ≠ .registered k) : scope.Untold later key :=
  of_same (hqualifies.find? key) (fun k hk => hqualifies.pinned_of_ne (hslot k hk))
    fun k hk => hqualifies.at?_of_ne (hslot k hk)

/-- Binding gives a variable a destination and leaves its texts alone. -/
theorem rebind (hindexed : scope.Indexed) {token : Token}
    (hrebinds : scope.Rebinds slot identifier token slot' later) (hkey : key.isToken = false) :
    scope.Untold later key := by
  have hfind : later.find? key = scope.find? key :=
    hrebinds.find?_of_not_named fun t heq => by simp [heq, Key.isToken] at hkey
  refine ⟨fun hnone k hk => ?_, fun k hk => hfind.trans hk, fun k hk => by rw [hrebinds.pinned],
    fun k hk => ?_⟩
  · have hk : later.find? key = some k := hk
    rw [hfind, hnone] at hk
    cases hk
  · rcases hrebinds.at?_cases (hindexed.lt_size hk) with hat | ⟨-, hat⟩
    · exact ⟨id, by simp [hat], fun v => ⟨rfl, fun _ => rfl⟩⟩
    · exact ⟨_, hat, fun v => ⟨rfl, fun _ => rfl⟩⟩

end Untold

/-! ## Operations that give a text -/

/-- Only a variable that has an expression has been given a name. -/
theorem Stands.name_eq_none {text? : Option String} (h : scope.Stands key text?) {k : Nat}
    {v : Variable} (hfind : scope.find? key = some k) (hv : scope.at? k = some v)
    (hexpression : ¬ v.hasExpression) : v.name = none := by
  cases text? with
  | none => exact (h k hfind).2 v hv
  | some text =>
      obtain ⟨i, hi, w, hw, -, hexpression', -⟩ := h
      cases hfind.symm.trans hi
      cases hv.symm.trans hw
      exact absurd hexpression' hexpression

theorem Stands.fixed_of_qualify {text? : Option String} (h : scope.Stands key text?)
    (hindexed : scope.Indexed) {k : Nat} (hfind : scope.find? key = some k) {qualifier : String}
    {name : Option String} (htexts : "" ∉ qualifier :: name.toList) {qualified : Qualified}
    (hqualify : scope.qualify (.registered k) identifier qualifier name =
      .ok (qualified, slot', later)) : later.Fixed key (name.getD qualifier) := by
  obtain ⟨v, hv⟩ := lt_size_iff.mp (hindexed.lt_size hfind)
  have hlater : later.find? key = some k := ((qualifies_of_ok hqualify).find? key).trans hfind
  obtain ⟨hqualifier, hname⟩ : qualifier ≠ "" ∧ name ≠ some "" := by
    simpa [eq_comm (a := "")] using htexts
  rcases qualify_registered hv hqualify with ⟨hexpression, rfl, hat⟩ | ⟨hexpression, hpinned, hat⟩
  · exact ⟨k, hlater, _, hat, by simp [Variable.reference?, hqualifier], hexpression, .inr rfl⟩
  · refine ⟨k, hlater, _, hat, ?_, by simp [Variable.hasExpression, hqualifier], .inl hpinned⟩
    rw [h.name_eq_none hfind hv hexpression]
    cases name with
    | none => simp [Variable.reference?, hqualifier]
    | some text =>
        have htext : text ≠ "" := fun heq => hname (congrArg some heq)
        simp [Variable.reference?, htext]

theorem Stands.after {text? : Option String} (h : scope.Stands key text?)
    (hindexed : scope.Indexed) (hkey : key.isToken = false) {operation : Operation}
    (hheld : operation.Held scope) (htexts : "" ∉ operation.texts) :
    (scope.after operation).Stands key ((operation.given? scope key).or text?) := by
  cases operation with
  | resolve identifier =>
      simp only [Scope.after, Operation.given?, Option.none_or]
      cases hresult : scope.resolve identifier with
      | error fault => exact h
      | ok result => exact (Untold.resolve hindexed (resolves_of_ok hresult)).stands h
  | qualify slot identifier qualifier name =>
      simp only [Scope.after, Operation.given?]
      cases hresult : scope.qualify slot identifier qualifier name with
      | error fault => exact h
      | ok result =>
          dsimp only
          split
          · next hslot =>
              obtain ⟨k, hfind, rfl⟩ := Option.map_eq_some_iff.mp hslot
              exact h.fixed_of_qualify hindexed hfind htexts hresult
          · next hslot =>
              refine (Untold.qualify (qualifies_of_ok hresult) fun k hk heq => ?_).stands h
              exact hslot (Option.map_eq_some_iff.mpr ⟨k, hk, heq.symm⟩)
  | rebind slot identifier token =>
      simp only [Scope.after, Operation.given?, Option.none_or]
      cases hresult : scope.rebind slot identifier token with
      | error fault => exact h
      | ok result => exact (Untold.rebind hindexed (rebinds_of_ok hresult) hkey).stands h

theorem Stands.afterAll {text? : Option String} (h : scope.Stands key text?)
    (hindexed : scope.Indexed) (hkey : key.isToken = false) {operations : List Operation}
    (hheld : Along (fun scope operation => operation.Held scope) scope operations)
    (htexts : ∀ operation ∈ operations, "" ∉ operation.texts) :
    (scope.afterAll operations).Stands key ((lastGiven? key scope operations).or text?) := by
  induction operations generalizing scope text? with
  | nil => exact h
  | cons operation rest ih =>
      obtain ⟨hfirst, hrest⟩ := List.forall_mem_cons.mp htexts
      have hafter :=
        ih (h.after hindexed hkey hheld.1 hfirst) (hindexed.after hheld.1) hheld.2 hrest
      rwa [← Option.or_assoc] at hafter

/-! ## Resolved texts -/

theorem propertyText?_ne_empty (scope : Scope) (owner : Token) (property : String) :
    (scope.propertyText? owner property).filter (fun text => text ≠ "") =
      scope.propertyText? owner property := by
  rw [propertyText?_eq]
  cases scope.ownerText? owner <;> simp

/-- A live token is called what its variable is called, if it has one. -/
theorem resolve_token_reference {owner : Token} (hlive : owner ∉ scope.retired)
    (descriptor : Option Descriptor) :
    ∃ resolution after, scope.resolve (.token owner descriptor) = .ok (resolution, after) ∧
      (after.get resolution.slot).reference? = scope.ownerText? owner := by
  refine ⟨(scope.resolved (.token owner descriptor)).1,
    (scope.resolved (.token owner descriptor)).2, resolve_of_live rfl hlive, ?_⟩
  cases hfind : scope.find? (.token owner) with
  | none => simp [resolved, Identifier.key?, hfind, get, beginning, Variable.reference?, ownerText?]
  | some k =>
      have hsame : scope.refreshed (.token owner descriptor) k = scope := modifyAt_same k
      simp only [resolved, Identifier.key?, hfind, hsame, get, ownerText?]
      cases hat : scope.at? k <;> simp [hat, Variable.reference?]

/-- A field of a live token is called by the text it has been given, or follows its owner. -/
theorem Stands.resolve_field_reference {owner : Token} {path : FieldPath} {text? : Option String}
    (h : scope.Stands (.field owner path.field) text?) (hindexed : scope.Indexed)
    (hlive : owner ∉ scope.retired) :
    ∃ resolution after, scope.resolve (.field owner path) = .ok (resolution, after) ∧
      (after.get resolution.slot).reference? =
        text?.or ((scope.ownerText? owner).map fun text => text ++ "." ++ path.property) := by
  refine ⟨(scope.resolved (.field owner path)).1, (scope.resolved (.field owner path)).2,
    resolve_of_live rfl hlive, ?_⟩
  rw [← propertyText?_eq]
  cases hfind : scope.find? (.field owner path.field) with
  | none =>
      cases text? with
      | none =>
          simpa [resolved, Identifier.key?, hfind, get, beginning, Variable.reference?] using
            propertyText?_ne_empty scope owner path.property
      | some text =>
          obtain ⟨k, hk, -⟩ := h
          cases hfind.symm.trans hk
  | some k =>
      obtain ⟨v, hv⟩ := lt_size_iff.mp (hindexed.lt_size hfind)
      have hget : ((scope.refreshed (.field owner path) k).get (.registered k)) =
          scope.refresh (.field owner path) k v := by simp [get, refreshed, hv]
      simp only [resolved, Identifier.key?, hfind, hget]
      cases text? with
      | none =>
          obtain ⟨hpinned, hname⟩ := h k hfind
          simpa [refresh, hpinned, hname v hv, Variable.reference?] using
            propertyText?_ne_empty scope owner path.property
      | some text =>
          obtain ⟨i, hi, w, hw, hreference, -, hheld⟩ := h
          cases hfind.symm.trans hi
          cases hv.symm.trans hw
          simpa [refresh, hheld] using hreference

/-- As long as no text has been given to it, a field of a live token is called by the property of
what its owner is called at the time, and after that by the last text it was given. -/
theorem field_follows_owner {history : List Operation}
    (hheld : Along (fun scope operation => operation.Held scope) {} history)
    (htexts : ∀ operation ∈ history, "" ∉ operation.texts) {owner : Token}
    (hlive : owner ∉ (afterAll {} history).retired) (descriptor : Option Descriptor)
    (path : FieldPath) :
    ∃ owned ownedScope found foundScope,
      (afterAll {} history).resolve (.token owner descriptor) = .ok (owned, ownedScope) ∧
      (afterAll {} history).resolve (.field owner path) = .ok (found, foundScope) ∧
      (foundScope.get found.slot).reference? =
        (lastGiven? (.field owner path.field) {} history).or
          ((ownedScope.get owned.slot).reference?.map fun text =>
            text ++ "." ++ path.property) := by
  have hindexed : (afterAll {} history).Indexed :=
    afterAll_keeps (fun _ _ hscope hoperation => hscope.after hoperation) .empty hheld
  have hstands : (afterAll {} history).Stands (.field owner path.field)
      (lastGiven? (.field owner path.field) {} history) := by
    have hfollows : Stands {} (.field owner path.field) none := fun k hk => by simp at hk
    have hafter := hfollows.afterAll .empty rfl hheld htexts
    rwa [Option.or_none] at hafter
  obtain ⟨owned, ownedScope, howned, howner⟩ := resolve_token_reference hlive descriptor
  obtain ⟨found, foundScope, hfound, hreference⟩ :=
    hstands.resolve_field_reference hindexed hlive
  exact ⟨owned, ownedScope, found, foundScope, howned, hfound, by rw [hreference, howner]⟩

/-- A field with a text of its own beside one without, of an owner that is bound and renamed after
both have been used. -/
def lateOwnerHistory : List Operation :=
  [.resolve (.field ⟨1⟩ ⟨"age", "age"⟩),
    .qualify (.registered 0) (.field ⟨1⟩ ⟨"age", "age"⟩) "m.years" (some "years"),
    .resolve (.field ⟨1⟩ ⟨"title", "title"⟩),
    .resolve (.name "m"), .rebind (.registered 2) (.name "m") ⟨1⟩,
    .resolve (.field ⟨1⟩ ⟨"title", "title"⟩),
    .qualify (.registered 2) (.token ⟨1⟩ none) "film" none,
    .qualify (.registered 0) (.field ⟨1⟩ ⟨"age", "age"⟩) "old" none,
    .qualify (.registered 0) (.field ⟨1⟩ ⟨"age", "age"⟩) "older" (some "oldest")]

theorem field_follows_owner_lateOwnerHistory :
    (∃ found after, (afterAll {} lateOwnerHistory).resolve (.field ⟨1⟩ ⟨"title", "name"⟩) =
        .ok (found, after) ∧ (after.get found.slot).reference? = some "film.name") ∧
    ∃ found after, (afterAll {} lateOwnerHistory).resolve (.field ⟨1⟩ ⟨"age", "age"⟩) =
        .ok (found, after) ∧ (after.get found.slot).reference? = some "old" := by
  have hlate (path : FieldPath) :=
    @field_follows_owner lateOwnerHistory (by decide) (by decide) ⟨1⟩ (by decide) none path
  constructor
  · obtain ⟨owned, ownedScope, found, after, howned, hfound, hreference⟩ := hlate ⟨"title", "name"⟩
    cases howned
    exact ⟨found, after, hfound, hreference.trans (by decide)⟩
  · obtain ⟨owned, ownedScope, found, after, howned, hfound, hreference⟩ := hlate ⟨"age", "age"⟩
    cases howned
    exact ⟨found, after, hfound, hreference.trans (by decide)⟩

end Scope

end GraphQuery
