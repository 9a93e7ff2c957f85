import GraphQuery.Proofs.OrderedMap
import GraphQuery.Proofs.Scope.History

/-! # Identity

An identifier stands for the same variable throughout, and the variable stays as it is until it is
qualified or bound itself. -/

namespace GraphQuery

theorem Key.eq_token_of_isToken {key : Key} (h : key.isToken = true) : ∃ t, key = .token t := by
  cases key with
  | token t => exact ⟨t, rfl⟩
  | _ => cases h

namespace Identifier

variable {identifier : Identifier} {t : Token} {field : String}

theorem eq_token_of_key? (h : identifier.key? = some (.token t)) :
    ∃ descriptor, identifier = .token t descriptor := by
  cases identifier with
  | token t' descriptor =>
      cases h
      exact ⟨descriptor, rfl⟩
  | _ => cases h

theorem eq_field_of_key? (h : identifier.key? = some (.field t field)) :
    ∃ path, identifier = .field t path := by
  cases identifier with
  | field owner path =>
      cases h
      exact ⟨path, rfl⟩
  | _ => cases h

theorem token?_of_owner? (h : identifier.owner? = some t) : identifier.token? = some t := by
  cases identifier with
  | field owner path => exact h
  | _ => cases h

theorem token?_of_key? (h : identifier.key? = some (.token t)) : identifier.token? = some t := by
  obtain ⟨descriptor, rfl⟩ := eq_token_of_key? h
  rfl

end Identifier

namespace Scope

/-- The variable is that of a field. -/
def IsField (scope : Scope) (k : Nat) : Prop :=
  ∃ owner field, scope.find? (.field owner field) = some k

theorem isField_iff (scope : Scope) (k : Nat) :
    scope.IsField k ↔ k ∈ scope.byField.entries.map Prod.snd := by
  simp [IsField, find?, OrderedMap.get?_eq_some_iff]

instance (scope : Scope) (k : Nat) : Decidable (scope.IsField k) :=
  decidable_of_iff' _ (isField_iff scope k)

theorem Indexed.not_isField {scope : Scope} (h : scope.Indexed) {text : String} {k : Nat}
    (hfind : scope.find? (.text text) = some k) : ¬ scope.IsField k := by
  rintro ⟨owner, field, hfield⟩
  cases h.distinct rfl rfl hfind hfield

namespace Operation

/-- The operation lets a token lead to the variable of a field. -/
def BindsField (scope : Scope) : Operation → Prop
  | .rebind (.registered k) _ _ => scope.IsField k
  | _ => False

instance (scope : Scope) : (operation : Operation) → Decidable (operation.BindsField scope)
  | .rebind (.registered k) _ _ => inferInstanceAs (Decidable (scope.IsField k))
  | .rebind (.detached _) _ _ | .resolve _ | .qualify _ _ _ _ => .isFalse id

/-- The operation takes the token from a variable or gives it one. -/
def Moves (t : Token) : Operation → Prop
  | .rebind _ identifier token => token = t ∨ identifier.key? = some (.token t)
  | _ => False

instance (t : Token) : (operation : Operation) → Decidable (operation.Moves t)
  | .rebind _ identifier token =>
      inferInstanceAs (Decidable (token = t ∨ identifier.key? = some (.token t)))
  | .resolve _ | .qualify _ _ _ _ => .isFalse id

/-- The operation leaves alone the variable that an identifier stands for, its token, and the
variable that its owner stands for. -/
structure Spares (scope : Scope) (identifier : Identifier) (k : Nat) (operation : Operation) :
    Prop where
  held : operation.Held scope
  slot : operation.slot? ≠ some (.registered k)
  token : ∀ t ∈ identifier.token?, ¬ operation.Moves t
  owner : ∀ owner ∈ identifier.owner?, ∀ i ∈ scope.find? (.token owner),
    operation.slot? ≠ some (.registered i)

instance (scope : Scope) (identifier : Identifier) (k : Nat) (operation : Operation) :
    Decidable (operation.Spares scope identifier k) :=
  decidable_of_iff (operation.Held scope ∧ operation.slot? ≠ some (.registered k) ∧
      (∀ t ∈ identifier.token?, ¬ operation.Moves t) ∧
      ∀ owner ∈ identifier.owner?, ∀ i ∈ scope.find? (.token owner),
        operation.slot? ≠ some (.registered i))
    ⟨fun ⟨held, slot, token, owner⟩ => ⟨held, slot, token, owner⟩,
      fun h => ⟨h.held, h.slot, h.token, h.owner⟩⟩

end Operation

variable {scope later : Scope}

/-! ## Owners -/

/-- What the variable of a token is called. -/
def ownerText? (scope : Scope) (owner : Token) : Option String := do
  let k ← scope.find? (.token owner)
  let v ← scope.at? k
  v.reference?

theorem propertyText?_eq (scope : Scope) (owner : Token) (property : String) :
    scope.propertyText? owner property =
      (scope.ownerText? owner).map fun text => text ++ "." ++ property := by
  have hfind : scope.find? (.token owner) = scope.byToken.get? owner := rfl
  rw [propertyText?, ownerText?, hfind]
  cases scope.byToken.get? owner with
  | none => rfl
  | some k =>
      cases hv : scope.at? k with
      | none => simp [hv]
      | some v => cases href : v.reference? <;> simp [hv, href]

theorem ownerText?_congr {owner : Token}
    (hfind : later.find? (.token owner) = scope.find? (.token owner))
    (hat : ∀ k, scope.find? (.token owner) = some k → later.at? k = scope.at? k) :
    later.ownerText? owner = scope.ownerText? owner := by
  rw [ownerText?, ownerText?, hfind]
  cases hk : scope.find? (.token owner) with
  | none => rfl
  | some k => simp [hat k hk]

/-! ## Refreshing -/

theorem refresh_congr {identifier : Identifier} {k : Nat}
    (hpinned : k ∈ later.pinned ↔ k ∈ scope.pinned)
    (howner : ∀ owner ∈ identifier.owner?, later.ownerText? owner = scope.ownerText? owner) :
    later.refresh identifier k = scope.refresh identifier k := by
  cases identifier with
  | field owner path =>
      funext v
      simp only [refresh, propertyText?_eq, hpinned, howner owner rfl]
  | _ => rfl

/-- Only a field's variable is refreshed. -/
theorem refresh_eq_self {identifier : Identifier} {key : Key} {k : Nat}
    (hkey : identifier.key? = some key) (hfind : scope.find? key = some k)
    (hfield : ¬ scope.IsField k) (v : Variable) : scope.refresh identifier k v = v := by
  cases identifier with
  | field owner path =>
      cases hkey
      exact absurd ⟨owner, path.field, hfind⟩ hfield
  | _ => rfl

/-- Of two refreshments of one field the later one counts. -/
theorem refresh_refresh (owner : Token) (path path' : FieldPath) (k : Nat) (v : Variable) :
    scope.refresh (.field owner path) k (scope.refresh (.field owner path') k v) =
      scope.refresh (.field owner path) k v := by
  by_cases h : k ∈ scope.pinned ∨ v.name.isSome
  · simp [refresh, h]
  · simp [refresh, h]

/-! ## What operations leave alone -/

section

variable {slot slot' : Slot} {identifier : Identifier} {resolution : Resolution} {token : Token}
  {k : Nat}

theorem Resolves.retired (h : scope.Resolves identifier resolution later) :
    later.retired = scope.retired := by
  cases h with
  | apart hkey => rfl
  | found hkey hfind => rfl
  | introduced hkey hfind => exact retired_introduce _ _

/-- No key that led to a variable is led elsewhere. -/
theorem Resolves.find?_kept (h : scope.Resolves identifier resolution later) {key : Key}
    (hfind : scope.find? key = some k) : later.find? key = some k := by
  cases h with
  | apart hkey => exact hfind
  | found hkey hold => exact (find?_modifyAt ..).trans hfind
  | introduced hkey hold =>
      refine (find?_introduce ..).trans ((if_neg ?_).trans hfind)
      rintro rfl
      cases hold.symm.trans hfind

/-- The key of the identifier leads to the slot it is resolved to. -/
theorem Resolves.leads (h : scope.Resolves identifier resolution later) {key : Key}
    (hkey : identifier.key? = some key) :
    ∃ k, resolution.slot = .registered k ∧ later.find? key = some k := by
  cases h with
  | apart hkeyless => cases hkeyless.symm.trans hkey
  | found hown hold =>
      cases hown.symm.trans hkey
      exact ⟨_, rfl, (find?_modifyAt ..).trans hold⟩
  | introduced hown hold =>
      cases hown.symm.trans hkey
      exact ⟨_, rfl, (find?_introduce ..).trans (if_pos rfl)⟩

theorem Qualifies.find? (h : scope.Qualifies slot slot' later) (key : Key) :
    later.find? key = scope.find? key := by
  cases h with
  | apart held held' => rfl
  | renamed i text => exact find?_modifyAt i _ key
  | expressed i text name => exact (find?_pin _ key).trans (find?_modifyAt i _ key)

theorem Qualifies.retired (h : scope.Qualifies slot slot' later) :
    later.retired = scope.retired := by
  cases h <;> rfl

theorem Qualifies.at?_of_ne (h : scope.Qualifies slot slot' later)
    (hslot : slot ≠ .registered k) : later.at? k = scope.at? k := by
  cases h with
  | apart held held' => rfl
  | renamed i text =>
      have hne : k ≠ i := fun heq => hslot (congrArg Slot.registered heq.symm)
      rw [at?_modifyAt, if_neg hne]
  | expressed i text name =>
      have hne : k ≠ i := fun heq => hslot (congrArg Slot.registered heq.symm)
      rw [at?_pin, at?_modifyAt, if_neg hne]

theorem Qualifies.pinned_of_ne (h : scope.Qualifies slot slot' later)
    (hslot : slot ≠ .registered k) : k ∈ later.pinned ↔ k ∈ scope.pinned := by
  cases h with
  | apart held held' => rfl
  | renamed i text => rfl
  | expressed i text name =>
      have hne : k ≠ i := fun heq => hslot (congrArg Slot.registered heq.symm)
      exact List.mem_insert_iff.trans (or_iff_right hne)

theorem replacedToken?_eq_some {old : Token} (h : replacedToken? identifier token = some old) :
    identifier.key? = some (.token old) := by
  cases identifier with
  | token t descriptor =>
      simp only [replacedToken?] at h
      split at h
      · cases h
      · cases h
        rfl
  | _ => cases h

/-- Only the tokens that a bind names are led elsewhere. -/
theorem Rebinds.find?_of_not_named (h : scope.Rebinds slot identifier token slot' later) {key : Key}
    (hkey : ∀ t, key = .token t → ¬ (token = t ∨ identifier.key? = some (.token t))) :
    later.find? key = scope.find? key := by
  rw [h.find?, if_neg, if_neg]
  · intro heq
    obtain ⟨old, hold, rfl⟩ := Option.map_eq_some_iff.mp heq
    exact hkey old rfl (.inr (replacedToken?_eq_some hold))
  · exact fun heq => hkey token heq (.inl rfl)

theorem Rebinds.find?_field (h : scope.Rebinds slot identifier token slot' later) (owner : Token)
    (field : String) : later.find? (.field owner field) = scope.find? (.field owner field) :=
  h.find?_of_not_named fun t heq => by cases heq

theorem Rebinds.isField_iff (h : scope.Rebinds slot identifier token slot' later) :
    later.IsField k ↔ scope.IsField k := by
  simp only [IsField, h.find?_field]

theorem register_ne (hlt : k < scope.size) (hslot : slot ≠ .registered k) :
    k ≠ (scope.register slot).1 := by
  cases slot with
  | registered i => exact fun heq => hslot (congrArg Slot.registered heq.symm)
  | detached held => exact Nat.ne_of_lt hlt

theorem Rebinds.at?_of_ne (h : scope.Rebinds slot identifier token slot' later)
    (hlt : k < scope.size) (hslot : slot ≠ .registered k) : later.at? k = scope.at? k := by
  rw [h.at?, if_neg (register_ne hlt hslot)]

theorem isField_introduce {key : Key} {v : Variable} (hlt : k < scope.size)
    (hkey : scope.find? key = none) :
    (scope.introduce key v).IsField k ↔ scope.IsField k := by
  have hfind : ∀ owner field, (scope.introduce key v).find? (.field owner field) = some k ↔
      scope.find? (.field owner field) = some k := by
    intro owner field
    rw [find?_introduce]
    split
    · next heq =>
        rw [heq, hkey]
        simpa using Nat.ne_of_gt hlt
    · rfl
  simp only [IsField, hfind]

end

/-! ## Tokens and fields -/

/-- No token leads to the variable of a field. -/
def Unshared (scope : Scope) : Prop :=
  ∀ t k, scope.find? (.token t) = some k → ¬ scope.IsField k

theorem Unshared.of_same (hunshared : scope.Unshared)
    (hfind : ∀ key, later.find? key = scope.find? key) : later.Unshared := by
  intro t k hk
  have hfield : later.IsField k ↔ scope.IsField k := by simp only [IsField, hfind]
  rw [hfind] at hk
  exact fun h => hunshared t k hk (hfield.mp h)

theorem not_isField_introduce (hindexed : scope.Indexed) {key : Key} (hkey : scope.find? key = none)
    {v : Variable} {t : Token} {k : Nat}
    (hk : (scope.introduce key v).find? (.token t) = some k)
    (hold : scope.find? (.token t) = some k → ¬ scope.IsField k) :
    ¬ (scope.introduce key v).IsField k := by
  rw [find?_introduce] at hk
  split at hk
  · next heq =>
      cases hk
      rintro ⟨owner, field, hfield⟩
      have hne : Key.field owner field ≠ key := by
        rintro rfl
        cases heq
      rw [find?_introduce, if_neg hne] at hfield
      exact Nat.lt_irrefl _ (hindexed.lt_size hfield)
  · rw [isField_introduce (hindexed.lt_size hk) hkey]
    exact hold hk

theorem Unshared.introduce (hunshared : scope.Unshared) (hindexed : scope.Indexed) {key : Key}
    (hkey : scope.find? key = none) (v : Variable) : (scope.introduce key v).Unshared :=
  fun t k hk => not_isField_introduce hindexed hkey hk (hunshared t k)

theorem Unshared.rebind (hunshared : scope.Unshared) (hindexed : scope.Indexed)
    {slot slot' : Slot} {identifier : Identifier} {token : Token}
    (hrebinds : scope.Rebinds slot identifier token slot' later)
    (hslot : ∀ k, slot = .registered k → ¬ scope.IsField k) : later.Unshared := by
  intro t k hk
  rw [hrebinds.isField_iff]
  rw [hrebinds.find?] at hk
  split at hk
  · cases hk
    cases slot with
    | registered i => exact hslot i rfl
    | detached held =>
        rintro ⟨owner, field, hfield⟩
        exact Nat.lt_irrefl _ (hindexed.lt_size hfield)
  · split at hk
    · cases hk
    · exact hunshared t k hk

theorem Unshared.after (hunshared : scope.Unshared) (hindexed : scope.Indexed)
    {operation : Operation} (hbinds : ¬ operation.BindsField scope) :
    (scope.after operation).Unshared := by
  revert hbinds
  refine after_cases
    (motive := fun operation later => ¬ operation.BindsField scope → later.Unshared)
    ?_ ?_ ?_ ?_ operation
  · exact fun _ _ => hunshared
  · intro identifier resolution later hresolves _
    cases hresolves with
    | apart hkey => exact hunshared
    | found hkey hfind => exact hunshared.of_same fun key => find?_modifyAt _ _ key
    | introduced hkey hfind => exact hunshared.introduce hindexed hfind _
  · exact fun hqualifies _ => hunshared.of_same hqualifies.find?
  · intro slot identifier token slot' later hrebinds hbinds
    refine hunshared.rebind hindexed hrebinds fun k hslot => ?_
    subst hslot
    exact hbinds

/-! ## What an identifier stands for -/

/-- The identifier stands for a variable of the scope, which is as given when it is resolved. -/
structure Settled (identifier : Identifier) (k : Nat) (v : Variable) (scope : Scope) : Prop where
  indexed : scope.Indexed
  key : ∃ key, identifier.key? = some key ∧ scope.find? key = some k
  live : ∀ t, identifier.token? = some t → t ∉ scope.retired
  apart : ∀ t i, identifier.token? = some t → scope.find? (.token t) = some i → ¬ scope.IsField i
  stands : (scope.at? k).map (scope.refresh identifier k) = some v

namespace Settled

variable {identifier : Identifier} {k : Nat} {v : Variable}

theorem lt_size (h : Settled identifier k v scope) : k < scope.size := by
  obtain ⟨key, -, hfind⟩ := h.key
  exact h.indexed.lt_size hfind

/-- Resolving the identifier again finds its variable as it stands. -/
theorem resolve (h : Settled identifier k v scope) :
    ∃ after, scope.resolve identifier = .ok (⟨.registered k, false⟩, after) ∧
      after.at? k = some v := by
  obtain ⟨key, hkey, hfind⟩ := h.key
  refine ⟨scope.refreshed identifier k, resolve_eq_ok_iff.mpr ⟨h.live, ?_⟩, ?_⟩
  · simp only [resolved, hkey, hfind]
  · rw [refreshed, at?_modifyAt, if_pos rfl, h.stands]

/-- The variables of owners are not those of fields, so refreshing a field keeps what its owner is
called. -/
theorem ownerText?_refreshed (h : Settled identifier k v scope) {other : Identifier} {key : Key}
    {i : Nat} (hkey : other.key? = some key) (hfind : scope.find? key = some i) {owner : Token}
    (howner : identifier.token? = some owner) :
    (scope.refreshed other i).ownerText? owner = scope.ownerText? owner := by
  refine ownerText?_congr (find?_modifyAt _ _ _) fun j hj => ?_
  rw [refreshed, at?_modifyAt]
  split
  · next heq =>
      subst heq
      have hself := refresh_eq_self hkey hfind (h.apart owner j howner hj)
      cases scope.at? j <;> simp [hself]
  · rfl

theorem refresh_absorbs (h : Settled identifier k v scope) {other : Identifier} {key : Key}
    (hkey : other.key? = some key) (hfind : scope.find? key = some k) (w : Variable) :
    scope.refresh identifier k (scope.refresh other k w) = scope.refresh identifier k w := by
  cases other with
  | field owner path =>
      cases hkey
      obtain ⟨own, hown, hk⟩ := h.key
      cases htoken : own.isToken with
      | true =>
          obtain ⟨t, rfl⟩ := Key.eq_token_of_isToken htoken
          exact absurd ⟨owner, path.field, hfind⟩
            (h.apart t k (Identifier.token?_of_key? hown) hk)
      | false =>
          cases h.indexed.distinct htoken rfl hk hfind
          obtain ⟨path', rfl⟩ := Identifier.eq_field_of_key? hown
          exact refresh_refresh owner path' path k w
  | _ => rfl

theorem refreshed (h : Settled identifier k v scope) {other : Identifier} {key : Key} {i : Nat}
    (hkey : other.key? = some key) (hfind : scope.find? key = some i) :
    Settled identifier k v (scope.refreshed other i) := by
  have hsame : ∀ key, (scope.refreshed other i).find? key = scope.find? key :=
    find?_modifyAt i _
  have hrefresh : (scope.refreshed other i).refresh identifier k = scope.refresh identifier k :=
    refresh_congr Iff.rfl fun owner howner =>
      h.ownerText?_refreshed hkey hfind (Identifier.token?_of_owner? howner)
  refine ⟨h.indexed.modifyAt i _, ?_, h.live, ?_, ?_⟩
  · simpa only [hsame] using h.key
  · simpa only [IsField, hsame] using h.apart
  · rw [hrefresh, Scope.refreshed, at?_modifyAt]
    split
    · next heq =>
        subst heq
        rw [Option.map_map, ← h.stands]
        exact congrArg (Option.map · _) (funext (h.refresh_absorbs hkey hfind))
    · exact h.stands

theorem ownerText?_introduce (hindexed : scope.Indexed) {other : Identifier} {key : Key}
    (hkey : other.key? = some key) (hfind : scope.find? key = none) (owner : Token) :
    (scope.introduce key (scope.beginning other)).ownerText? owner = scope.ownerText? owner := by
  by_cases htoken : Key.token owner = key
  · subst htoken
    obtain ⟨descriptor, rfl⟩ := Identifier.eq_token_of_key? hkey
    simp [ownerText?, hfind, beginning, Variable.reference?]
  · refine ownerText?_congr ?_ fun j hj => ?_
    · rw [find?_introduce, if_neg htoken]
    · rw [at?_introduce, if_neg (Nat.ne_of_lt (hindexed.lt_size hj))]

theorem introduce (h : Settled identifier k v scope) {other : Identifier} {key : Key}
    (hkey : other.key? = some key) (hfind : scope.find? key = none) :
    Settled identifier k v (scope.introduce key (scope.beginning other)) := by
  have hrefresh : (scope.introduce key (scope.beginning other)).refresh identifier k =
      scope.refresh identifier k :=
    refresh_congr (by rw [pinned_introduce]) fun owner _ =>
      ownerText?_introduce h.indexed hkey hfind owner
  refine ⟨h.indexed.introduce key _, ?_, ?_, ?_, ?_⟩
  · obtain ⟨own, hown, hk⟩ := h.key
    have hne : own ≠ key := by
      rintro rfl
      rw [hfind] at hk
      cases hk
    exact ⟨own, hown, by rw [find?_introduce, if_neg hne, hk]⟩
  · rw [retired_introduce]
    exact h.live
  · exact fun t i ht hi => not_isField_introduce h.indexed hfind hi (h.apart t i ht)
  · rw [hrefresh, at?_introduce, if_neg (Nat.ne_of_lt h.lt_size), h.stands]

theorem qualify (h : Settled identifier k v scope) {slot slot' : Slot}
    (hheld : slot.Held scope) (hqualifies : scope.Qualifies slot slot' later)
    (hslot : slot ≠ .registered k)
    (howner : ∀ owner ∈ identifier.owner?, ∀ i ∈ scope.find? (.token owner),
      slot ≠ .registered i) :
    Settled identifier k v later := by
  have hrefresh : later.refresh identifier k = scope.refresh identifier k :=
    refresh_congr (hqualifies.pinned_of_ne hslot) fun owner hfield =>
      ownerText?_congr (hqualifies.find? _) fun j hj =>
        hqualifies.at?_of_ne (howner owner hfield j hj)
  refine ⟨h.indexed.qualify hheld hqualifies, ?_, ?_, ?_, ?_⟩
  · simpa only [hqualifies.find?] using h.key
  · rw [hqualifies.retired]
    exact h.live
  · simpa only [IsField, hqualifies.find?] using h.apart
  · rw [hrefresh, hqualifies.at?_of_ne hslot, h.stands]

theorem rebind (h : Settled identifier k v scope) {slot slot' : Slot} {other : Identifier}
    {token : Token} (hheld : slot.Held scope)
    (hrebinds : scope.Rebinds slot other token slot' later) (hslot : slot ≠ .registered k)
    (hmoves : ∀ t ∈ identifier.token?, ¬ (token = t ∨ other.key? = some (.token t)))
    (howner : ∀ owner ∈ identifier.owner?, ∀ i ∈ scope.find? (.token owner),
      slot ≠ .registered i) :
    Settled identifier k v later := by
  have htoken : ∀ t, identifier.token? = some t →
      later.find? (.token t) = scope.find? (.token t) := fun t ht =>
    hrebinds.find?_of_not_named fun t' heq => by
      cases heq
      exact hmoves t ht
  have hrefresh : later.refresh identifier k = scope.refresh identifier k :=
    refresh_congr (by rw [hrebinds.pinned]) fun owner hfield =>
      ownerText?_congr (htoken owner (Identifier.token?_of_owner? hfield)) fun j hj =>
        hrebinds.at?_of_ne (h.indexed.lt_size hj) (howner owner hfield j hj)
  refine ⟨h.indexed.rebind hheld hrebinds, ?_, ?_, ?_, ?_⟩
  · obtain ⟨own, hown, hk⟩ := h.key
    refine ⟨own, hown, ?_⟩
    rw [hrebinds.find?_of_not_named, hk]
    rintro t rfl
    exact hmoves t (Identifier.token?_of_key? hown)
  · intro t ht hretired
    rcases (hrebinds.retired t).mp hretired with hold | hold
    · exact hmoves t ht (.inr (replacedToken?_eq_some hold))
    · exact h.live t ht hold
  · intro t i ht hi
    rw [htoken t ht] at hi
    rw [hrebinds.isField_iff]
    exact h.apart t i ht hi
  · rw [hrefresh, hrebinds.at?_of_ne h.lt_size hslot, h.stands]

theorem after (h : Settled identifier k v scope) {operation : Operation}
    (hspares : operation.Spares scope identifier k) :
    Settled identifier k v (scope.after operation) := by
  revert hspares
  refine after_cases
    (motive := fun operation later => operation.Spares scope identifier k →
      Settled identifier k v later) ?_ ?_ ?_ ?_ operation
  · exact fun _ _ => h
  · intro other resolution later hresolves _
    cases hresolves with
    | apart hkey => exact h
    | found hkey hfind => exact h.refreshed hkey hfind
    | introduced hkey hfind => exact h.introduce hkey hfind
  · intro slot other qualifier name slot' later hqualifies hspares
    exact h.qualify (hspares.held slot rfl) hqualifies (fun heq => hspares.slot (congrArg some heq))
      fun owner howner i hi heq => hspares.owner owner howner i hi (congrArg some heq)
  · intro slot other token slot' later hrebinds hspares
    exact h.rebind (hspares.held slot rfl) hrebinds (fun heq => hspares.slot (congrArg some heq))
      hspares.token
      fun owner howner i hi heq => hspares.owner owner howner i hi (congrArg some heq)

/-- A variable that has just been introduced is as refreshing makes it. -/
theorem refresh_beginning (hindexed : scope.Indexed) {key : Key}
    (hkey : identifier.key? = some key) (hfind : scope.find? key = none) :
    (scope.introduce key (scope.beginning identifier)).refresh identifier k
      (scope.beginning identifier) = scope.beginning identifier := by
  cases identifier with
  | field owner path =>
      have howner := ownerText?_introduce hindexed hkey hfind owner
      simp only [refresh, propertyText?_eq, howner]
      split <;> simp [beginning, propertyText?_eq]
  | _ => rfl

/-- Whatever variable an identifier has been resolved to, it stands for. -/
theorem of_resolves (hindexed : scope.Indexed) (hunshared : scope.Unshared)
    (hlive : ∀ t, identifier.token? = some t → t ∉ scope.retired) {created : Bool}
    (h : scope.Resolves identifier ⟨.registered k, created⟩ later) :
    ∃ v, later.at? k = some v ∧ Settled identifier k v later := by
  cases h with
  | found hkey hfind =>
      obtain ⟨w, hw⟩ := lt_size_iff.mp (hindexed.lt_size hfind)
      have hsettled : Settled identifier k (scope.refresh identifier k w) scope :=
        ⟨hindexed, ⟨_, hkey, hfind⟩, hlive, fun t i _ => hunshared t i, by rw [hw]; rfl⟩
      refine ⟨scope.refresh identifier k w, ?_, hsettled.refreshed hkey hfind⟩
      rw [Scope.refreshed, at?_modifyAt, if_pos rfl, hw]
      rfl
  | @introduced key hkey hfind =>
      have hat : (scope.introduce key (scope.beginning identifier)).at? scope.size =
          some (scope.beginning identifier) := by rw [at?_introduce, if_pos rfl]
      refine ⟨scope.beginning identifier, hat, hindexed.introduce _ _, ⟨_, hkey, ?_⟩, ?_, ?_, ?_⟩
      · rw [find?_introduce, if_pos rfl]
      · rw [retired_introduce]
        exact hlive
      · exact fun t i _ hi => not_isField_introduce hindexed hfind hi (hunshared t i)
      · rw [hat, Option.map_some, refresh_beginning hindexed hkey hfind]

end Settled

/-- An identifier that was resolved to a variable still is, and to the same variable as it was,
when later operations have left it, its token and its owner alone. -/
theorem identity_stable {history later : List Operation} {identifier : Identifier} {k : Nat}
    {created : Bool} {found : Scope}
    (hhistory : Along (fun scope operation =>
      operation.Held scope ∧ ¬ operation.BindsField scope) {} history)
    (hfound : (afterAll {} history).resolve identifier =
      .ok (⟨.registered k, created⟩, found))
    (hlater : Along (fun scope operation => operation.Spares scope identifier k) found later) :
    ∃ v, found.at? k = some v ∧
      ∃ after, (found.afterAll later).resolve identifier = .ok (⟨.registered k, false⟩, after) ∧
        after.at? k = some v := by
  have hstep : ∀ (scope : Scope) (operation : Operation), scope.Indexed ∧ scope.Unshared →
      operation.Held scope ∧ ¬ operation.BindsField scope →
      (scope.after operation).Indexed ∧ (scope.after operation).Unshared :=
    fun scope operation hscope hoperation =>
      ⟨hscope.1.after hoperation.1, hscope.2.after hscope.1 hoperation.2⟩
  have hreached : (afterAll {} history).Indexed ∧ (afterAll {} history).Unshared :=
    afterAll_keeps hstep ⟨.empty, fun t k hk => by simp at hk⟩ hhistory
  obtain ⟨v, hv, hsettled⟩ := Settled.of_resolves hreached.1 hreached.2
    (resolve_eq_ok_iff.mp hfound).1 (resolves_of_ok hfound)
  have hsettledLater : Settled identifier k v (found.afterAll later) :=
    afterAll_keeps (fun _ _ hscope hoperation => hscope.after hoperation) hsettled hlater
  exact ⟨v, hv, hsettledLater.resolve⟩

/-- A text that a token leads to, a field of that token, and a parameter with a token of its own. -/
def boundHistory : List Operation :=
  [.resolve (.name "n"), .rebind (.registered 0) (.name "n") ⟨1⟩,
    .resolve (.parameter "rows" .null),
    .rebind (.detached { expression := some "$rows" }) (.parameter "rows" .null) ⟨2⟩]

/-- The field again under another property, and changes of everything but the field and its
owner. -/
def otherOperations : List Operation :=
  [.resolve (.field ⟨1⟩ ⟨"age", "years"⟩), .resolve (.token ⟨1⟩ none),
    .qualify (.registered 1) (.token ⟨2⟩ none) "r" none,
    .rebind (.registered 1) (.token ⟨2⟩ none) ⟨3⟩, .resolve (.raw "m.x"),
    .qualify (.registered 3) (.raw "m.x") "x" none]

theorem identity_stable_boundHistory :
    ∃ v, ((afterAll {} boundHistory).resolved (.field ⟨1⟩ ⟨"age", "age"⟩)).2.at? 2 = some v ∧
      ∃ after,
        (((afterAll {} boundHistory).resolved (.field ⟨1⟩ ⟨"age", "age"⟩)).2.afterAll
            otherOperations).resolve (.field ⟨1⟩ ⟨"age", "age"⟩) =
          .ok (⟨.registered 2, false⟩, after) ∧
        after.at? 2 = some v :=
  @identity_stable boundHistory otherOperations _ 2 true _ (by decide) rfl (by decide)

end Scope

end GraphQuery
