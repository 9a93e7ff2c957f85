import GraphQuery.Draft.Resolution
import GraphQuery.Proofs.Scope.Keyed

/-! # One use

What the use of a mention makes of a scope: the identifier is resolved, and its variable is then
qualified and bound, each if the mention asks for it. What fails leaves what has been done so
far. -/

namespace GraphQuery

namespace Mention

/-- The text that a mention gives its variable, and the name along with it. -/
def qualification? (mention : Mention) : Option (String × Option String) :=
  match mention.qualifier, mention.name with
  | some qualifier, name => some (qualifier, name)
  | none, some name => some (name, none)
  | none, none => none

/-- The mention qualifies a copy of its variable: it is query text and has no token to bind. -/
def Copies (mention : Mention) : Prop :=
  mention.identifier.text?.isSome ∧ mention.bind = none ∧ mention.qualification?.isSome

instance (mention : Mention) : Decidable mention.Copies := inferInstanceAs (Decidable (_ ∧ _))

end Mention

/-- No variable is referred to by an empty text. -/
theorem Variable.ne_empty_of_reference? {v : Variable} {text : String}
    (h : v.reference? = some text) : text ≠ "" := by
  simpa using (Option.filter_eq_some_iff.mp h).2

/-- What is known once the parameter that an identifier may be is noted. -/
def Vocabulary.noting (known : Vocabulary) : Identifier → Vocabulary
  | .parameter name value => { known with parameters := known.parameters.insert name value }
  | _ => known

namespace Scope

variable (scope : Scope) (mention : Mention)

/-- The slot that the mention qualifies. -/
def slotFor (slot : Slot) : Slot :=
  if mention.Copies then .detached (scope.get slot) else slot

def qualifyBy (slot : Slot) : Except Fault (Option Qualified × Slot × Scope) :=
  match mention.qualification? with
  | some (text, name) => do
      let (qualified, slot, scope) ← scope.qualify slot mention.identifier text name
      return (some qualified, slot, scope)
  | none => return (none, slot, scope)

def bindBy (slot : Slot) : Except Fault (Slot × Scope) :=
  match mention.bind with
  | some token => scope.rebind slot mention.identifier token
  | none => return (slot, scope)

/-- The use of a mention, with the scope it leaves. -/
def use : Except Fault Use × Scope :=
  match scope.resolve mention.identifier with
  | .error fault => (.error fault, scope)
  | .ok (resolution, resolved) =>
      match resolved.qualifyBy mention (resolved.slotFor mention resolution.slot) with
      | .error fault => (.error fault, resolved)
      | .ok (qualified, slot, changed) =>
          match changed.bindBy mention slot with
          | .error fault => (.error fault, changed)
          | .ok (slot, bound) => (.ok ⟨bound.get slot, resolution.created, qualified⟩, bound)

end Scope

namespace Resolve

variable (mention : Mention) (known : Vocabulary)

theorem noteParameter_eq (identifier : Identifier) :
    noteParameter identifier known = .ok () (known.noting identifier) := by
  cases identifier <;> rfl

theorem slotFor_eq (slot : Slot) :
    slotFor mention slot known = .ok (known.scope.slotFor mention slot) known := by
  have hcopies : (mention.identifier.text?.isSome && mention.bind.isNone &&
      (mention.qualifier.isSome || mention.name.isSome)) = decide mention.Copies := by
    rw [Bool.eq_iff_iff]
    cases hqualifier : mention.qualifier <;> cases hname : mention.name <;>
      simp [Mention.Copies, Mention.qualification?, hqualifier, hname]
  simp only [slotFor, hcopies, Scope.slotFor, decide_eq_true_eq]
  split <;> rfl

theorem onScope_eq {α : Type} (operation : Scope → Except Fault (α × Scope)) :
    onScope operation known =
      match operation known.scope with
      | .ok (result, scope) => .ok result { known with scope }
      | .error fault => .error fault known := by
  unfold onScope
  cases operation known.scope <;> rfl

/-- The qualification of a slot by a text and perhaps a name. -/
def qualifying (identifier : Identifier) (slot : Slot) (text : String) (name : Option String) :
    Resolve (Option Qualified × Slot) := do
  let (qualified, slot) ← onScope fun scope => do
    let (qualified, slot, scope) ← scope.qualify slot identifier text name
    return ((qualified, slot), scope)
  return (some qualified, slot)

theorem qualify_eq_qualifying {text : String} {name : Option String} (slot : Slot)
    (h : mention.qualification? = some (text, name)) :
    qualify mention slot = qualifying mention.identifier slot text name := by
  obtain ⟨identifier, qualifier, given, _⟩ := mention
  cases qualifier with
  | some qualifier =>
      cases h
      rfl
  | none =>
      cases given with
      | some given =>
          cases h
          rfl
      | none => cases h

theorem qualify_eq_pure (slot : Slot) (h : mention.qualification? = none) :
    qualify mention slot = pure (none, slot) := by
  obtain ⟨identifier, qualifier, given, _⟩ := mention
  cases qualifier with
  | some qualifier => cases h
  | none =>
      cases given with
      | some given => cases h
      | none => rfl

theorem qualify_eq (slot : Slot) :
    qualify mention slot known =
      match known.scope.qualifyBy mention slot with
      | .ok (qualified, slot, scope) => .ok (qualified, slot) { known with scope }
      | .error fault => .error fault known := by
  cases hasked : mention.qualification? with
  | none =>
      rw [qualify_eq_pure mention slot hasked, Scope.qualifyBy, hasked]
      rfl
  | some asked =>
      rw [qualify_eq_qualifying mention slot hasked, Scope.qualifyBy, hasked]
      simp only [qualifying, onScope_eq, Bind.bind, EStateM.bind, Except.bind]
      cases known.scope.qualify slot mention.identifier asked.1 asked.2 <;> rfl

theorem bind_eq (slot : Slot) :
    bind mention slot known =
      match known.scope.bindBy mention slot with
      | .ok (slot, scope) => .ok slot { known with scope }
      | .error fault => .error fault known := by
  cases hbind : mention.bind with
  | none =>
      simp only [bind, Scope.bindBy, hbind]
      rfl
  | some token =>
      simp only [bind, Scope.bindBy, hbind, onScope_eq]
      cases known.scope.rebind slot mention.identifier token <;> rfl

/-- Of the parameters a use only notes its own, and the rest it does in the scope. -/
theorem use_eq :
    use mention known =
      match known.scope.use mention with
      | (.ok used, scope) => .ok used { known.noting mention.identifier with scope }
      | (.error fault, scope) => .error fault { known.noting mention.identifier with scope } := by
  have hscope : (known.noting mention.identifier).scope = known.scope := by
    cases mention.identifier <;> rfl
  simp only [use, Bind.bind, EStateM.bind, noteParameter_eq, onScope_eq, hscope, Scope.use]
  cases known.scope.resolve mention.identifier with
  | error fault => simp [← hscope]
  | ok result =>
      simp only [slotFor_eq, qualify_eq]
      cases result.2.qualifyBy mention (result.2.slotFor mention result.1.slot) with
      | error fault => rfl
      | ok changed =>
          simp only [bind_eq]
          cases changed.2.2.bindBy mention changed.2.1 <;> rfl

end Resolve

namespace Scope

variable {scope now later : Scope} {mention : Mention} {slot slot' : Slot}

/-! ## Parts of a use -/

theorem qualifyBy_ok {outcome : Option Qualified}
    (h : scope.qualifyBy mention slot = .ok (outcome, slot', later)) :
    (mention.qualification? = none ∧ outcome = none ∧ slot' = slot ∧ later = scope) ∨
      ∃ text name qualified, mention.qualification? = some (text, name) ∧
        outcome = some qualified ∧
        scope.qualify slot mention.identifier text name = .ok (qualified, slot', later) := by
  unfold qualifyBy at h
  cases hasked : mention.qualification? with
  | none =>
      rw [hasked] at h
      cases h
      exact .inl ⟨rfl, rfl, rfl, rfl⟩
  | some asked =>
      simp only [hasked] at h
      cases hresult : scope.qualify slot mention.identifier asked.1 asked.2 with
      | error fault =>
          rw [hresult] at h
          cases h
      | ok result =>
          rw [hresult] at h
          cases h
          exact .inr ⟨asked.1, asked.2, result.1, rfl, rfl, hresult⟩

theorem qualifyBy_cases {qualified : Option Qualified}
    (h : scope.qualifyBy mention slot = .ok (qualified, slot', later)) :
    (mention.qualification? = none ∧ qualified = none ∧ slot' = slot ∧ later = scope) ∨
      (mention.qualification?.isSome ∧ scope.Qualifies slot slot' later) := by
  refine (qualifyBy_ok h).imp_right ?_
  rintro ⟨text, name, _, hasked, -, hqualify⟩
  exact ⟨Option.isSome_of_eq_some hasked, qualifies_of_ok hqualify⟩

theorem bindBy_cases (h : scope.bindBy mention slot = .ok (slot', later)) :
    (mention.bind = none ∧ slot' = slot ∧ later = scope) ∨
      ∃ token, mention.bind = some token ∧
        scope.Rebinds slot mention.identifier token slot' later := by
  unfold bindBy at h
  cases hbind : mention.bind with
  | none =>
      rw [hbind] at h
      cases h
      exact .inl ⟨rfl, rfl, rfl⟩
  | some token =>
      rw [hbind] at h
      exact .inr ⟨token, rfl, rebinds_of_ok h⟩

/-! ## The way of a use -/

/-- Two keys lead to one variable. -/
def Share (scope : Scope) (key key' : Key) : Prop :=
  ∃ k ∈ scope.find? key, scope.find? key' = some k

instance (scope : Scope) (key key' : Key) : Decidable (scope.Share key key') :=
  inferInstanceAs (Decidable (∃ k ∈ scope.find? key, scope.find? key' = some k))

/-- The scope and the slot of a use under way: once the identifier is resolved, until a token is
bound. -/
structure Reached (scope : Scope) (mention : Mention) (slot : Slot) (now : Scope) : Prop where
  indexed : now.Indexed
  /-- No key but the mention's own has come to lead anywhere. -/
  find? : ∀ key k, now.find? key = some k →
    scope.find? key = some k ∨ mention.identifier.key? = some key ∧ k = scope.size
  apart : mention.Copies ∨ mention.identifier.key? = none → ∃ held, slot = .detached held
  leads : ∀ key, mention.identifier.key? = some key → ¬ mention.Copies →
    ∃ k, slot = .registered k ∧ now.find? key = some k

namespace Reached

theorem key (h : Reached scope mention slot now) {k : Nat} (hslot : slot = .registered k) :
    ∃ key, mention.identifier.key? = some key ∧ now.find? key = some k := by
  have hplaced : ¬ (mention.Copies ∨ mention.identifier.key? = none) := by
    intro happart
    obtain ⟨held, hheld⟩ := h.apart happart
    exact Slot.noConfusion (hslot.symm.trans hheld)
  rw [not_or] at hplaced
  obtain ⟨key, hkey⟩ := Option.ne_none_iff_exists'.mp hplaced.2
  obtain ⟨i, hi, hfind⟩ := h.leads key hkey hplaced.1
  cases hslot.symm.trans hi
  exact ⟨key, hkey, hfind⟩

theorem held (h : Reached scope mention slot now) : slot.Held now := by
  cases slot with
  | detached held => trivial
  | registered k =>
      obtain ⟨key, -, hfind⟩ := h.key rfl
      exact h.indexed.lt_size hfind

/-- Another key that leads to the variable of the use has done so before. -/
theorem share (h : Reached scope mention slot now) (hindexed : scope.Indexed) {other : Key}
    {k : Nat} (hslot : slot = .registered k) (hfind : now.find? other = some k)
    (hother : mention.identifier.key? ≠ some other) :
    ∃ own, mention.identifier.key? = some own ∧ scope.Share own other := by
  obtain ⟨own, hown, hk⟩ := h.key hslot
  have hbefore : scope.find? other = some k := by
    rcases h.find? other k hfind with hbefore | ⟨hsame, -⟩
    · exact hbefore
    · exact absurd hsame hother
  refine ⟨own, hown, k, ?_, hbefore⟩
  rcases h.find? own k hk with hown | ⟨-, rfl⟩
  · exact hown
  · exact absurd (hindexed.lt_size hbefore) (Nat.lt_irrefl _)

theorem resolve (hindexed : scope.Indexed) {resolution : Resolution}
    (hresolves : scope.Resolves mention.identifier resolution now) :
    Reached scope mention (now.slotFor mention resolution.slot) now where
  indexed := hindexed.resolve hresolves
  find? key k hfind := by
    cases hresolves with
    | apart hkey => exact .inl hfind
    | found hkey hold => exact .inl (find?_modifyAt _ _ key ▸ hfind)
    | introduced hkey hold =>
        rw [find?_introduce] at hfind
        split at hfind
        · next heq =>
            cases hfind
            exact .inr ⟨heq ▸ hkey, rfl⟩
        · exact .inl hfind
  apart happart := by
    unfold slotFor
    split
    · exact ⟨_, rfl⟩
    · next hcopies =>
        have hkeyless := happart.resolve_left hcopies
        cases hresolves with
        | apart hkey => exact ⟨_, rfl⟩
        | found hkey hold => cases hkey.symm.trans hkeyless
        | introduced hkey hold => cases hkey.symm.trans hkeyless
  leads key hkey hcopies := by
    rw [slotFor, if_neg hcopies]
    exact hresolves.leads hkey

theorem qualify (h : Reached scope mention slot now) (hqualifies : now.Qualifies slot slot' later) :
    Reached scope mention slot' later where
  indexed := h.indexed.qualify h.held hqualifies
  find? key k hfind := h.find? key k (hqualifies.find? key ▸ hfind)
  apart happart := by
    obtain ⟨held, rfl⟩ := h.apart happart
    cases hqualifies with
    | apart _ held' => exact ⟨held', rfl⟩
  leads key hkey hcopies := by
    obtain ⟨k, rfl, hfind⟩ := h.leads key hkey hcopies
    rw [← hqualifies.find?] at hfind
    cases hqualifies with
    | renamed _ text => exact ⟨k, rfl, hfind⟩
    | expressed _ text name => exact ⟨k, rfl, hfind⟩

end Reached

/-- A property that each part of a use keeps is kept by the use, wherever it stops. -/
theorem use_keeps {Inv : Scope → Prop} (hindexed : scope.Indexed) (hscope : Inv scope)
    (hresolve : ∀ {resolution now}, scope.Resolves mention.identifier resolution now → Inv now)
    (hqualify : ∀ {slot slot' now later}, Reached scope mention slot now → Inv now →
      mention.qualification?.isSome → now.Qualifies slot slot' later → Inv later)
    (hbind : ∀ {slot slot' now later token}, Reached scope mention slot now → Inv now →
      mention.bind = some token → now.Rebinds slot mention.identifier token slot' later →
        Inv later) :
    Inv (scope.use mention).2 := by
  unfold use
  cases hresolved : scope.resolve mention.identifier with
  | error fault => exact hscope
  | ok result =>
      have hresolves := resolves_of_ok hresolved
      have hreached := Reached.resolve hindexed hresolves
      have hnow : Inv result.2 := hresolve hresolves
      dsimp only
      cases hqualified : result.2.qualifyBy mention (result.2.slotFor mention result.1.slot) with
      | error fault => exact hnow
      | ok changed =>
          obtain ⟨qualified, slot, later⟩ := changed
          have hlater : Reached scope mention slot later ∧ Inv later := by
            rcases qualifyBy_cases hqualified with ⟨-, -, rfl, rfl⟩ | ⟨hasked, hqualifies⟩
            · exact ⟨hreached, hnow⟩
            · exact ⟨hreached.qualify hqualifies, hqualify hreached hnow hasked hqualifies⟩
          dsimp only
          cases hbound : later.bindBy mention slot with
          | error fault => exact hlater.2
          | ok bound =>
              rcases bindBy_cases hbound with ⟨-, -, hsame⟩ | ⟨token, hasked, hrebinds⟩
              · exact hsame ▸ hlater.2
              · exact hbind hlater.1 hlater.2 hasked hrebinds

theorem Indexed.use (h : scope.Indexed) (mention : Mention) : (scope.use mention).2.Indexed :=
  use_keeps h h h.resolve (fun hreached hnow _ => hnow.qualify hreached.held)
    fun hreached hnow _ => hnow.rebind hreached.held

theorem use_of_resolve {resolution : Resolution}
    (hresolve : scope.resolve mention.identifier = .ok (resolution, now))
    (hasked : mention.qualification? = none) :
    scope.use mention =
      match now.bindBy mention (now.slotFor mention resolution.slot) with
      | .error fault => (.error fault, now)
      | .ok (slot, bound) => (.ok ⟨bound.get slot, resolution.created, none⟩, bound) := by
  simp only [use, hresolve, qualifyBy, hasked]
  rfl

/-- What a use that succeeds has been through. -/
theorem use_ok {used : Use} (h : scope.use mention = (.ok used, later)) :
    ∃ resolution resolved slot changed slot',
      scope.Resolves mention.identifier resolution resolved ∧
      resolved.qualifyBy mention (resolved.slotFor mention resolution.slot) =
        .ok (used.qualified, slot, changed) ∧
      changed.bindBy mention slot = .ok (slot', later) ∧ used.found = later.get slot' := by
  unfold use at h
  cases hresolved : scope.resolve mention.identifier with
  | error fault =>
      rw [hresolved] at h
      cases h
  | ok result =>
      simp only [hresolved] at h
      cases hqualified : result.2.qualifyBy mention (result.2.slotFor mention result.1.slot) with
      | error fault =>
          rw [hqualified] at h
          cases h
      | ok changed =>
          simp only [hqualified] at h
          cases hbound : changed.2.2.bindBy mention changed.2.1 with
          | error fault =>
              rw [hbound] at h
              cases h
          | ok bound =>
              rw [hbound] at h
              cases h
              exact ⟨result.1, result.2, changed.2.1, changed.2.2, bound.1,
                resolves_of_ok hresolved, hqualified, hbound, rfl⟩

/-- A use without a token to bind gives the variable in the slot it has reached. -/
theorem use_reached {used : Use} (hindexed : scope.Indexed) (hbind : mention.bind = none)
    (h : scope.use mention = (.ok used, later)) :
    ∃ slot, Reached scope mention slot later ∧ used.found = later.get slot := by
  obtain ⟨resolution, resolved, slot, changed, slot', hresolves, hqualified, hbound, hfound⟩ :=
    use_ok h
  have hreached := Reached.resolve hindexed hresolves
  have hchanged : Reached scope mention slot changed := by
    rcases qualifyBy_cases hqualified with ⟨-, -, rfl, rfl⟩ | ⟨-, hqualifies⟩
    · exact hreached
    · exact hreached.qualify hqualifies
  rcases bindBy_cases hbound with ⟨-, rfl, rfl⟩ | ⟨token, hasked, -⟩
  · exact ⟨slot', hchanged, hfound⟩
  · cases hbind.symm.trans hasked

end Scope

end GraphQuery
