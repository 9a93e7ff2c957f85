import GraphQuery.Proofs.Draft.Use

/-! # All variables of a scope

What can be said of every variable that a scope has. It is kept by the use of a mention if no
variable loses it when the mention resolves, qualifies or binds it. -/

namespace GraphQuery

namespace Scope

def Every (P : Variable → Prop) (scope : Scope) : Prop := ∀ k v, scope.at? k = some v → P v

theorem every_empty (P : Variable → Prop) : Every P {} := by
  intro k v hv
  cases hv

end Scope

/-- The variables that the mention makes or changes have the property if the others have it. -/
structure Mention.Keeps (mention : Mention) (P : Variable → Prop) : Prop where
  blank : P {}
  beginning : ∀ {scope : Scope}, scope.Every P → P (scope.beginning mention.identifier)
  refresh : ∀ {scope : Scope} {v : Variable} (k : Nat), scope.Every P → P v →
    P (scope.refresh mention.identifier k v)
  named : ∀ {text name} {v : Variable}, mention.qualification? = some (text, name) → P v →
    P { v with name := some text }
  expressed : ∀ {text name} {v : Variable}, mention.qualification? = some (text, name) → P v →
    P { v with expression := some text, name := name <|> v.name }
  bound : ∀ {t} {v : Variable}, P v → P { v with destination := some t }

/-- The variable of a use has the property, and so has what it was before the use renamed it. -/
structure Use.Has (used : Use) (P : Variable → Prop) : Prop where
  found : P used.found
  source : ∀ source, used.qualified = some (.renamed source) →
    ∃ before : Variable, P before ∧ before.hasExpression ∧ source = before.reference?.getD ""

namespace Scope

variable {P : Variable → Prop} {scope later : Scope} {slot slot' : Slot} {mention : Mention}

theorem get_slotFor (mention : Mention) (slot : Slot) :
    scope.get (scope.slotFor mention slot) = scope.get slot := by
  unfold slotFor
  split <;> rfl

theorem get_pin (scope : Scope) (other slot : Slot) :
    (scope.pin other).get slot = scope.get slot := by
  cases slot with
  | registered k => rw [get, at?_pin, get]
  | detached held => rfl

namespace Every

theorem get (h : scope.Every P) (hblank : P {}) (k : Nat) : P (scope.get (.registered k)) := by
  rw [Scope.get]
  cases hv : scope.at? k with
  | none => exact hblank
  | some v => exact h k v hv

theorem of_at? (h : scope.Every P) (hat : ∀ k, later.at? k = scope.at? k) : later.Every P :=
  fun k v hv => h k v ((hat k).symm.trans hv)

theorem modifyAt (h : scope.Every P) {k : Nat} {change : Variable → Variable}
    (hchange : ∀ {v}, P v → P (change v)) : (scope.modifyAt k change).Every P := by
  intro i v hv
  rw [at?_modifyAt] at hv
  split at hv
  · obtain ⟨before, hbefore, rfl⟩ := Option.map_eq_some_iff.mp hv
    exact hchange (h i before hbefore)
  · exact h i v hv

theorem add (h : scope.Every P) {v : Variable} (hv : P v) : (scope.add v).Every P := by
  intro i w hw
  rw [at?_add] at hw
  split at hw
  · cases hw
    exact hv
  · exact h i w hw

theorem introduce (h : scope.Every P) (key : Key) {v : Variable} (hv : P v) :
    (scope.introduce key v).Every P :=
  (h.add hv).of_at? fun k => (at?_introduce key v k).trans (at?_add v k).symm

/-! ## Parts of a use -/

theorem resolves (h : scope.Every P) (hmention : mention.Keeps P) {resolution : Resolution}
    (hresolves : scope.Resolves mention.identifier resolution later) :
    later.Every P ∧ P (later.get resolution.slot) := by
  cases hresolves with
  | apart hkey => exact ⟨h, hmention.beginning h⟩
  | @found _ k hkey hfind =>
      have hlater : (scope.refreshed mention.identifier k).Every P :=
        h.modifyAt (hmention.refresh k h)
      exact ⟨hlater, hlater.get hmention.blank k⟩
  | @introduced key hkey hfind =>
      have hlater := h.introduce key (hmention.beginning h)
      exact ⟨hlater, hlater.get hmention.blank scope.size⟩

theorem modify (h : scope.Every P) (hblank : P {}) (hslot : P (scope.get slot))
    {change : Variable → Variable} (hmodify : scope.modify slot change = (slot', later))
    (hchange : ∀ {v}, P v → P (change v)) : later.Every P ∧ P (later.get slot') := by
  cases slot with
  | registered k =>
      cases hmodify
      have hlater := h.modifyAt (k := k) hchange
      exact ⟨hlater, hlater.get hblank k⟩
  | detached held =>
      cases hmodify
      exact ⟨h, hchange hslot⟩

theorem qualifyBy (h : scope.Every P) (hmention : mention.Keeps P) (hslot : P (scope.get slot))
    {qualified : Option Qualified}
    (hresult : scope.qualifyBy mention slot = .ok (qualified, slot', later)) :
    later.Every P ∧ P (later.get slot') ∧
      ∀ source, qualified = some (.renamed source) →
        ∃ before : Variable, P before ∧ before.hasExpression ∧
          source = before.reference?.getD "" := by
  rcases qualifyBy_ok hresult with ⟨-, rfl, rfl, rfl⟩ | ⟨text, name, _, hasked, rfl, hqualify⟩
  · exact ⟨h, hslot, nofun⟩
  · rcases qualify_ok hqualify with ⟨hexpression, -, rfl, hmodify⟩ | ⟨-, rfl, changed, hmodify, rfl⟩
    · obtain ⟨hlater, hget⟩ := h.modify hmention.blank hslot hmodify (hmention.named hasked)
      refine ⟨hlater, hget, ?_⟩
      rintro source ⟨⟩
      exact ⟨scope.get slot, hslot, hexpression, rfl⟩
    · obtain ⟨hchanged, hget⟩ := h.modify hmention.blank hslot hmodify (hmention.expressed hasked)
      refine ⟨hchanged.of_at? (at?_pin slot'), ?_, nofun⟩
      rwa [get_pin]

theorem bindBy (h : scope.Every P) (hmention : mention.Keeps P) (hslot : P (scope.get slot))
    (hresult : scope.bindBy mention slot = .ok (slot', later)) :
    later.Every P ∧ P (later.get slot') := by
  rcases bindBy_cases hresult with ⟨-, rfl, rfl⟩ | ⟨token, -, hrebinds⟩
  · exact ⟨h, hslot⟩
  · have hregister : (scope.register slot).2.Every P := by
      cases slot with
      | registered k => exact h
      | detached held => exact h.add hslot
    have hmodified : ((scope.register slot).2.modifyAt (scope.register slot).1 fun v =>
        { v with destination := some token }).Every P := hregister.modifyAt hmention.bound
    have hlater : later.Every P := hmodified.of_at? fun k => by
      rw [hrebinds.at?, at?_modifyAt]
      split
      · rfl
      · next hk => exact (at?_register hk).symm
    rw [hrebinds.place]
    exact ⟨hlater, hlater.get hmention.blank _⟩

/-! ## Uses -/

theorem use (h : scope.Every P) (hmention : mention.Keeps P) :
    (scope.use mention).2.Every P ∧
      ∀ used, (scope.use mention).1 = .ok used → used.Has P := by
  unfold Scope.use
  cases hresolve : scope.resolve mention.identifier with
  | error fault => exact ⟨h, nofun⟩
  | ok result =>
      obtain ⟨resolution, resolved⟩ := result
      obtain ⟨hresolved, hslot⟩ := h.resolves hmention (resolves_of_ok hresolve)
      rw [← get_slotFor mention] at hslot
      dsimp only
      cases hqualify : resolved.qualifyBy mention (resolved.slotFor mention resolution.slot) with
      | error fault => exact ⟨hresolved, nofun⟩
      | ok result =>
          obtain ⟨qualified, slot, changed⟩ := result
          obtain ⟨hchanged, hslot, hsource⟩ := hresolved.qualifyBy hmention hslot hqualify
          dsimp only
          cases hbind : changed.bindBy mention slot with
          | error fault => exact ⟨hchanged, nofun⟩
          | ok result =>
              obtain ⟨hbound, hslot⟩ := hchanged.bindBy hmention hslot hbind
              refine ⟨hbound, ?_⟩
              rintro used ⟨⟩
              exact ⟨hslot, hsource⟩

end Every

end Scope

end GraphQuery
