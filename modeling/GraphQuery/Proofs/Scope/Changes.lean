import GraphQuery.Scope.Basic

/-! # Changes of a scope

What each operation changes of a scope: the variables that keys lead to, and what these variables
are. -/

namespace GraphQuery

/-- What a variable of a scope is found by. -/
inductive Key
  | text (text : String)
  | token (token : Token)
  | field (owner : Token) (field : String)
  deriving DecidableEq

namespace Identifier

/-- Anonymous identifiers, types and parameters have no key. -/
def key? : Identifier → Option Key
  | .name text | .raw text => some (.text text)
  | .token t _ => some (.token t)
  | .field owner path => some (.field owner path.field)
  | _ => none

/-- The token an identifier is or belongs to. -/
def token? : Identifier → Option Token
  | .token t _ => some t
  | .field owner _ => some owner
  | _ => none

/-- The token that a field belongs to. -/
def owner? : Identifier → Option Token
  | .field owner _ => some owner
  | _ => none

end Identifier

namespace Scope

variable (scope : Scope)

/-- The variable a key leads to. -/
def find? : Key → Option Nat
  | .text text => scope.byText.get? text
  | .token token => scope.byToken.get? token
  | .field owner field => scope.byField.get? (owner, field)

@[simp] theorem find?_empty (key : Key) : ({} : Scope).find? key = none := by
  cases key <;> rfl

/-- Adds a variable for a key. -/
def introduce (key : Key) (v : Variable) : Scope :=
  match key with
  | .text text => { scope.add v with byText := scope.byText.insert text scope.size }
  | .token token => { scope.add v with byToken := scope.byToken.insert token scope.size }
  | .field owner field =>
      { scope.add v with byField := scope.byField.insert (owner, field) scope.size }

/-- What the variable of an identifier begins as. -/
def beginning : Identifier → Variable
  | .name text | .raw text => { expression := some text }
  | .token token descriptor =>
      { label := descriptor.map Descriptor.label, destination := some token }
  | .field owner path => { expression := scope.propertyText? owner path.property }
  | .typeValue descriptor => { label := some descriptor.label }
  | .parameter name _ => { expression := some ("$" ++ name) }
  | .anonymous => {}

/-- What a variable becomes when an identifier is resolved to it. -/
def refresh (identifier : Identifier) (id : Nat) (v : Variable) : Variable :=
  match identifier with
  | .field owner path =>
      if id ∈ scope.pinned ∨ v.name.isSome then v
      else { v with expression := scope.propertyText? owner path.property }
  | _ => v

/-- The scope after an identifier is resolved to a variable it has. -/
def refreshed (identifier : Identifier) (id : Nat) : Scope :=
  scope.modifyAt id (scope.refresh identifier id)

/-! ## Single changes -/

section

variable {scope}

theorem lt_size_iff {id : Nat} : id < scope.size ↔ ∃ v, scope.at? id = some v := by
  rw [← Option.isSome_iff_exists]
  simp [size, at?]

@[simp] theorem size_add (v : Variable) : (scope.add v).size = scope.size + 1 := by
  simp [size, add]

@[simp] theorem at?_add (v : Variable) (id : Nat) :
    (scope.add v).at? id = if id = scope.size then some v else scope.at? id := by
  exact Array.getElem?_push

@[simp] theorem size_modifyAt (id : Nat) (change : Variable → Variable) :
    (scope.modifyAt id change).size = scope.size := by
  simp [size, modifyAt]

@[simp] theorem at?_modifyAt (id : Nat) (change : Variable → Variable) (k : Nat) :
    (scope.modifyAt id change).at? k =
      if k = id then (scope.at? k).map change else scope.at? k := by
  simp [at?, modifyAt, Array.getElem?_modify, eq_comm]

@[simp] theorem find?_modifyAt (id : Nat) (change : Variable → Variable) (key : Key) :
    (scope.modifyAt id change).find? key = scope.find? key := by
  cases key <;> rfl

@[simp] theorem find?_pin (slot : Slot) (key : Key) :
    (scope.pin slot).find? key = scope.find? key := by
  cases slot <;> cases key <;> rfl

@[simp] theorem at?_pin (slot : Slot) (id : Nat) : (scope.pin slot).at? id = scope.at? id := by
  cases slot <;> rfl

@[simp] theorem size_pin (slot : Slot) : (scope.pin slot).size = scope.size := by
  cases slot <;> rfl

@[simp] theorem size_introduce (key : Key) (v : Variable) :
    (scope.introduce key v).size = scope.size + 1 := by
  cases key <;> exact size_add v

@[simp] theorem at?_introduce (key : Key) (v : Variable) (id : Nat) :
    (scope.introduce key v).at? id = if id = scope.size then some v else scope.at? id := by
  cases key <;> exact at?_add v id

@[simp] theorem find?_introduce (key : Key) (v : Variable) (other : Key) :
    (scope.introduce key v).find? other =
      if other = key then some scope.size else scope.find? other := by
  cases key <;> cases other <;> simp [introduce, find?, eq_comm, add]

@[simp] theorem retired_introduce (key : Key) (v : Variable) :
    (scope.introduce key v).retired = scope.retired := by
  cases key <;> rfl

@[simp] theorem pinned_introduce (key : Key) (v : Variable) :
    (scope.introduce key v).pinned = scope.pinned := by
  cases key <;> rfl

end

/-! ## Resolving -/

/-- What a resolution finds and leaves. -/
inductive Resolves : Identifier → Resolution → Scope → Prop
  | apart {identifier : Identifier} (hkey : identifier.key? = none) :
      Resolves identifier ⟨.detached (scope.beginning identifier), true⟩ scope
  | found {identifier : Identifier} {key : Key} {id : Nat} (hkey : identifier.key? = some key)
      (hfind : scope.find? key = some id) :
      Resolves identifier ⟨.registered id, false⟩ (scope.refreshed identifier id)
  | introduced {identifier : Identifier} {key : Key} (hkey : identifier.key? = some key)
      (hfind : scope.find? key = none) :
      Resolves identifier ⟨.registered scope.size, true⟩
        (scope.introduce key (scope.beginning identifier))

section

variable {scope} {identifier : Identifier} {resolution : Resolution} {after : Scope}

theorem modifyAt_eq_self {k : Nat} {change : Variable → Variable}
    (h : ∀ v ∈ scope.at? k, change v = v) : scope.modifyAt k change = scope := by
  have hstored : scope.stored.modify k change = scope.stored := by
    apply Array.ext_getElem?
    intro i
    rw [Array.getElem?_modify]
    split
    · next hi =>
        subst hi
        cases hv : scope.stored[k]? with
        | none => rfl
        | some v => exact congrArg some (h v hv)
    · rfl
  rw [modifyAt, hstored]

theorem modifyAt_same (k : Nat) : scope.modifyAt k (fun v => v) = scope :=
  modifyAt_eq_self fun _ _ => rfl

theorem refreshed_pinned {owner : Token} {path : FieldPath} {k : Nat} (h : k ∈ scope.pinned) :
    scope.refreshed (.field owner path) k = scope := by
  have hkept : scope.refresh (.field owner path) k = fun v => v := by
    funext v
    simp [refresh, h]
  rw [refreshed, hkept, modifyAt_same]

theorem refreshed_unpinned {owner : Token} {path : FieldPath} {k : Nat} (h : k ∉ scope.pinned) :
    scope.refreshed (.field owner path) k = scope.modifyAt k fun v =>
      if v.name.isNone then { v with expression := scope.propertyText? owner path.property }
      else v := by
  have hchange : scope.refresh (.field owner path) k = fun v =>
      if v.name.isNone then { v with expression := scope.propertyText? owner path.property }
      else v := by
    funext v
    cases hname : v.name <;> simp [refresh, h, hname]
  rw [refreshed, hchange]

/-- What an identifier of a live token, or of none, is resolved to. -/
def resolved (identifier : Identifier) : Resolution × Scope :=
  match identifier.key? with
  | none => (⟨.detached (scope.beginning identifier), true⟩, scope)
  | some key =>
      match scope.find? key with
      | some id => (⟨.registered id, false⟩, scope.refreshed identifier id)
      | none =>
          (⟨.registered scope.size, true⟩, scope.introduce key (scope.beginning identifier))

theorem resolveText_eq {identifier : Identifier} {text : String}
    (h : identifier.text? = some text) :
    scope.resolveText text = scope.resolved identifier := by
  have hname : scope.resolveText text = scope.resolved (.name text) := by
    have hfind : scope.find? (.text text) = scope.byText.get? text := rfl
    simp only [resolveText, resolved, Identifier.key?, hfind]
    cases scope.byText.get? text with
    | none => rfl
    | some k => exact congrArg _ (modifyAt_same k).symm
  cases identifier with
  | name _ =>
      cases h
      exact hname
  | raw _ =>
      cases h
      exact hname
  | _ => cases h

theorem resolveToken_eq (t : Token) (descriptor : Option Descriptor) :
    scope.resolveToken t (descriptor.map Descriptor.label) =
      scope.resolved (.token t descriptor) := by
  have hfind : scope.find? (.token t) = scope.byToken.get? t := rfl
  simp only [resolveToken, resolved, Identifier.key?, hfind]
  cases scope.byToken.get? t with
  | none => rfl
  | some k => exact congrArg _ (modifyAt_same k).symm

theorem resolveField_eq (owner : Token) (path : FieldPath) :
    scope.resolveField owner path = scope.resolved (.field owner path) := by
  have hfind : scope.find? (.field owner path.field) = scope.byField.get? (owner, path.field) :=
    rfl
  simp only [resolveField, resolved, Identifier.key?, hfind]
  cases scope.byField.get? (owner, path.field) with
  | none => rfl
  | some k =>
      by_cases h : k ∈ scope.pinned
      · simp [h, refreshed_pinned]
      · simp [h, refreshed_unpinned]

theorem checkLive_bind {α : Type} (t : Token) (result : α) :
    (do scope.checkLive t; return result) =
      if t ∈ scope.retired then .error (.unresolvedIdentifier t.display) else .ok result := by
  rw [checkLive]
  split <;> rfl

/-- An identifier is resolved, unless its token is retired. -/
theorem resolve_eq (identifier : Identifier) :
    scope.resolve identifier =
      match identifier.token? with
      | some t =>
          if t ∈ scope.retired then .error (.unresolvedIdentifier t.display)
          else .ok (scope.resolved identifier)
      | none => .ok (scope.resolved identifier) := by
  cases identifier with
  | token t descriptor =>
      rw [resolve, resolveToken_eq]
      exact checkLive_bind t _
  | field owner path =>
      rw [resolve, resolveField_eq]
      exact checkLive_bind owner _
  | name text => exact congrArg Except.ok (resolveText_eq rfl)
  | raw text => exact congrArg Except.ok (resolveText_eq rfl)
  | _ => rfl

theorem resolve_of_live {t : Token} (htoken : identifier.token? = some t)
    (hlive : t ∉ scope.retired) : scope.resolve identifier = .ok (scope.resolved identifier) := by
  rw [resolve_eq]
  simp only [htoken, if_neg hlive]

theorem resolve_eq_ok_iff :
    scope.resolve identifier = .ok (resolution, after) ↔
      (∀ t, identifier.token? = some t → t ∉ scope.retired) ∧
        scope.resolved identifier = (resolution, after) := by
  rw [resolve_eq]
  cases identifier.token? with
  | none => simp
  | some t => by_cases h : t ∈ scope.retired <;> simp [h]

theorem resolves_of_ok (h : scope.resolve identifier = .ok (resolution, after)) :
    scope.Resolves identifier resolution after := by
  obtain ⟨-, hresolved⟩ := resolve_eq_ok_iff.mp h
  unfold resolved at hresolved
  cases hkey : identifier.key? with
  | none =>
      rw [hkey] at hresolved
      cases hresolved
      exact .apart hkey
  | some key =>
      cases hfind : scope.find? key with
      | none =>
          simp only [hkey, hfind] at hresolved
          cases hresolved
          exact .introduced hkey hfind
      | some k =>
          simp only [hkey, hfind] at hresolved
          cases hresolved
          exact .found hkey hfind

/-! ## Qualifying -/

variable {slot slot' : Slot} {qualifier : String} {name : Option String} {qualified : Qualified}

/-- What a qualification leaves. -/
inductive Qualifies (scope : Scope) : Slot → Slot → Scope → Prop
  | apart (held held' : Variable) : Qualifies scope (.detached held) (.detached held') scope
  | renamed (k : Nat) (text : String) :
      Qualifies scope (.registered k) (.registered k)
        (scope.modifyAt k fun v => { v with name := some text })
  | expressed (k : Nat) (text : String) (name : Option String) :
      Qualifies scope (.registered k) (.registered k)
        ((scope.modifyAt k fun v =>
          { v with expression := some text, name := name <|> v.name }).pin (.registered k))

/-- A variable that has an expression is renamed, and one that has none is given one. -/
theorem qualify_ok
    (h : scope.qualify slot identifier qualifier name = .ok (qualified, slot', after)) :
    ((scope.get slot).hasExpression ∧ name = none ∧
        qualified = .renamed ((scope.get slot).reference?.getD "") ∧
        scope.modify slot (fun v => { v with name := some qualifier }) = (slot', after)) ∨
      (¬ (scope.get slot).hasExpression ∧ qualified = .expression ∧ ∃ changed,
        scope.modify slot (fun v =>
          { v with expression := some qualifier, name := name <|> v.name }) = (slot', changed) ∧
        after = changed.pin slot') := by
  simp only [qualify] at h
  split at h
  · next hexpression =>
      cases name with
      | some _ => cases h
      | none =>
          cases h
          exact .inl ⟨hexpression, rfl, rfl, rfl⟩
  · next hexpression =>
      cases h
      exact .inr ⟨hexpression, rfl, _, rfl, rfl⟩

theorem qualifies_of_ok
    (h : scope.qualify slot identifier qualifier name = .ok (qualified, slot', after)) :
    scope.Qualifies slot slot' after := by
  cases slot with
  | registered k =>
      rcases qualify_ok h with ⟨-, -, -, hmodify⟩ | ⟨-, -, changed, hmodify, rfl⟩
      · cases hmodify
        exact .renamed k qualifier
      · cases hmodify
        exact .expressed k qualifier name
  | detached held =>
      rcases qualify_ok h with ⟨-, -, -, hmodify⟩ | ⟨-, -, changed, hmodify, rfl⟩
      · cases hmodify
        exact .apart held _
      · cases hmodify
        exact .apart held _

theorem qualify_registered {k : Nat} {v : Variable} (hv : scope.at? k = some v)
    (h : scope.qualify (.registered k) identifier qualifier name = .ok (qualified, slot', after)) :
    (v.hasExpression ∧ name = none ∧ after.at? k = some { v with name := some qualifier }) ∨
      (¬ v.hasExpression ∧ k ∈ after.pinned ∧
        after.at? k = some { v with expression := some qualifier, name := name <|> v.name }) := by
  have hbefore : scope.get (.registered k) = v := by simp [get, hv]
  rcases qualify_ok h with ⟨hexpression, rfl, -, hmodify⟩ | ⟨hexpression, -, changed, hmodify, rfl⟩
  · cases hmodify
    exact .inl ⟨hbefore ▸ hexpression, rfl, by simp [hv]⟩
  · cases hmodify
    exact .inr ⟨hbefore ▸ hexpression, List.mem_insert_self, by simp [hv]⟩

/-! ## Binding -/

/-- What binding a slot to a token leaves. -/
structure Rebinds (scope : Scope) (slot : Slot) (identifier : Identifier) (token : Token)
    (slot' : Slot) (after : Scope) : Prop where
  live : token ∉ scope.retired
  place : slot' = .registered (scope.register slot).1
  find? : ∀ key, after.find? key =
    if key = .token token then some (scope.register slot).1
    else if (replacedToken? identifier token).map Key.token = some key then none
    else scope.find? key
  at? : ∀ k, after.at? k =
    if k = (scope.register slot).1 then
      ((scope.register slot).2.at? k).map fun v => { v with destination := some token }
    else scope.at? k
  size : after.size = (scope.register slot).2.size
  pinned : after.pinned = scope.pinned
  retired : ∀ t, t ∈ after.retired ↔ replacedToken? identifier token = some t ∨ t ∈ scope.retired

theorem find?_register (slot : Slot) (key : Key) :
    (scope.register slot).2.find? key = scope.find? key := by
  cases slot <;> cases key <;> rfl

theorem at?_register {slot : Slot} {k : Nat} (h : k ≠ (scope.register slot).1) :
    (scope.register slot).2.at? k = scope.at? k := by
  cases slot with
  | registered _ => rfl
  | detached held => exact (at?_add held k).trans (if_neg h)

theorem pinned_register (slot : Slot) : (scope.register slot).2.pinned = scope.pinned := by
  cases slot <;> rfl

theorem retired_register (slot : Slot) : (scope.register slot).2.retired = scope.retired := by
  cases slot <;> rfl

/-- The scope without a token that is replaced. -/
def vacated (scope : Scope) : Option Token → Scope
  | some old => scope.retire old
  | none => scope

theorem find?_vacated (old? : Option Token) (key : Key) :
    (scope.vacated old?).find? key =
      if old?.map Key.token = some key then none else scope.find? key := by
  cases old? with
  | none => rfl
  | some old => cases key <;> simp [vacated, find?, retire, eq_comm]

@[simp] theorem at?_vacated (old? : Option Token) (k : Nat) :
    (scope.vacated old?).at? k = scope.at? k := by
  cases old? <;> rfl

@[simp] theorem size_vacated (old? : Option Token) : (scope.vacated old?).size = scope.size := by
  cases old? <;> rfl

@[simp] theorem pinned_vacated (old? : Option Token) :
    (scope.vacated old?).pinned = scope.pinned := by
  cases old? <;> rfl

theorem mem_retired_vacated (old? : Option Token) (t : Token) :
    t ∈ (scope.vacated old?).retired ↔ old? = some t ∨ t ∈ scope.retired := by
  cases old? with
  | none => simp [vacated]
  | some old => simp [vacated, retire, eq_comm]

/-- The scope with a token that leads to a variable and is its destination. -/
def attached (scope : Scope) (t : Token) (k : Nat) : Scope :=
  { scope.modifyAt k fun v => { v with destination := some t } with
    byToken := scope.byToken.insert t k }

theorem find?_attached (t : Token) (k : Nat) (key : Key) :
    (scope.attached t k).find? key = if key = .token t then some k else scope.find? key := by
  cases key <;> simp [attached, find?, modifyAt, eq_comm]

theorem at?_attached (t : Token) (k i : Nat) :
    (scope.attached t k).at? i =
      if i = k then (scope.at? i).map fun v => { v with destination := some t }
      else scope.at? i :=
  at?_modifyAt k _ i

/-- A slot is bound to a token, unless that is retired. -/
theorem rebind_eq (slot : Slot) (identifier : Identifier) (t : Token) :
    scope.rebind slot identifier t =
      if t ∈ scope.retired then .error (.unresolvedIdentifier t.display)
      else .ok (.registered (scope.register slot).1,
        ((scope.register slot).2.vacated (replacedToken? identifier t)).attached t
          (scope.register slot).1) := by
  rw [rebind, checkLive]
  split
  · rfl
  · cases replacedToken? identifier t <;> rfl

theorem rebinds_of_ok {token : Token}
    (h : scope.rebind slot identifier token = .ok (slot', after)) :
    scope.Rebinds slot identifier token slot' after := by
  rw [rebind_eq] at h
  split at h
  · cases h
  · next hlive =>
      cases h
      refine ⟨hlive, rfl, fun key => ?_, fun k => ?_, ?_, ?_, fun t => ?_⟩
      · rw [find?_attached, find?_vacated, find?_register]
      · rw [at?_attached, at?_vacated]
        split
        · rfl
        · next hk => exact at?_register hk
      · exact (size_modifyAt _ _).trans (size_vacated _)
      · exact (pinned_vacated _).trans (pinned_register slot)
      · exact (mem_retired_vacated _ t).trans (by rw [retired_register])

end

end Scope

end GraphQuery
