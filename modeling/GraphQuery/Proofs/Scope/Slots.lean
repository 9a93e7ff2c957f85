import GraphQuery.Proofs.Scope.Identity

/-! # Slots

A scope hands out slots, and operations on these make it hand out more. However long this goes on,
each slot that it has handed out holds one of its variables, and each text and each field goes on
leading to its own. -/

namespace GraphQuery

/-- The slot keeps its variable itself. -/
def Slot.isDetached : Slot → Bool
  | .registered _ => false
  | .detached _ => true

namespace Scope

/-- The slot that an operation hands out, or gives back in place of its own. -/
def handed? (scope : Scope) : Operation → Option Slot
  | .resolve identifier =>
      match scope.resolve identifier with
      | .ok (resolution, _) => some resolution.slot
      | .error _ => none
  | .qualify slot identifier qualifier name =>
      match scope.qualify slot identifier qualifier name with
      | .ok (_, slot', _) => some slot'
      | .error _ => none
  | .rebind slot identifier token =>
      match scope.rebind slot identifier token with
      | .ok (slot', _) => some slot'
      | .error _ => none

end Scope

/-! ## Registries -/

/-- A scope with the slots it has handed out. -/
structure Registry where
  scope : Scope := {}
  slots : List Slot := []

namespace Registry

open Scope

/-- The slot has been handed out, or keeps a copy of some variable. -/
def Offers (registry : Registry) (slot : Slot) : Prop :=
  slot ∈ registry.slots ∨ slot.isDetached

instance (registry : Registry) (slot : Slot) : Decidable (registry.Offers slot) :=
  inferInstanceAs (Decidable (_ ∨ _))

/-- The operation is one on a slot that the registry offers, if it is one on a slot at all. -/
def Admits (registry : Registry) (operation : Operation) : Prop :=
  ∀ slot ∈ operation.slot?, registry.Offers slot

instance (registry : Registry) (operation : Operation) : Decidable (registry.Admits operation) :=
  inferInstanceAs (Decidable (∀ slot ∈ operation.slot?, registry.Offers slot))

def after (registry : Registry) (operation : Operation) : Registry where
  scope := registry.scope.after operation
  slots := registry.slots ++ (registry.scope.handed? operation).toList

/-- What operations on slots that were handed out make of a registry. -/
inductive Reaches (start : Registry) : Registry → Prop
  | refl : start.Reaches start
  | after {registry : Registry} (h : start.Reaches registry) {operation : Operation}
      (hadmits : registry.Admits operation) : start.Reaches (registry.after operation)

theorem Reaches.trans {start registry later : Registry} (h : start.Reaches registry)
    (hlater : registry.Reaches later) : start.Reaches later := by
  induction hlater with
  | refl => exact h
  | after _ hadmits ih => exact ih.after hadmits

/-- The keys lead to variables that are there, those of texts and fields each to its own, and so do
the slots that were handed out. -/
structure Intact (registry : Registry) : Prop where
  indexed : registry.scope.Indexed
  held : ∀ slot ∈ registry.slots, slot.Held registry.scope

/-- Nothing is taken back: neither a variable nor a slot, nor what a text or a field leads to. -/
structure Extends (later registry : Registry) : Prop where
  size_le : registry.scope.size ≤ later.scope.size
  slots : registry.slots ⊆ later.slots
  kept : ∀ {key k}, key.isToken = false → registry.scope.find? key = some k →
    later.scope.find? key = some k

end Registry

/-! ## One operation -/

theorem Slot.Held.mono {scope later : Scope} {slot : Slot} (h : slot.Held scope)
    (hsize : scope.size ≤ later.size) : slot.Held later := by
  cases slot with
  | registered k => exact Nat.lt_of_lt_of_le h hsize
  | detached held => trivial

namespace Scope

variable {scope later : Scope} {slot slot' : Slot} {identifier : Identifier} {token : Token}

theorem Resolves.size_le {resolution : Resolution}
    (h : scope.Resolves identifier resolution later) : scope.size ≤ later.size := by
  cases h with
  | apart hkey => exact Nat.le_refl _
  | found hkey hfind => exact Nat.le_of_eq (size_modifyAt ..).symm
  | introduced hkey hfind =>
      rw [size_introduce]
      exact Nat.le_succ _

theorem Resolves.held (hindexed : scope.Indexed) {resolution : Resolution}
    (h : scope.Resolves identifier resolution later) : resolution.slot.Held later := by
  cases h with
  | apart hkey => trivial
  | found hkey hfind => exact Nat.lt_of_lt_of_eq (hindexed.lt_size hfind) (size_modifyAt ..).symm
  | introduced hkey hfind => exact Nat.lt_of_lt_of_eq (Nat.lt_succ_self _) (size_introduce ..).symm

theorem Qualifies.size_eq (h : scope.Qualifies slot slot' later) : later.size = scope.size := by
  cases h with
  | apart held held' => rfl
  | renamed k text => exact size_modifyAt ..
  | expressed k text name => exact (size_pin _).trans (size_modifyAt ..)

theorem Qualifies.held (h : scope.Qualifies slot slot' later) (hheld : slot.Held scope) :
    slot'.Held later := by
  have hsize := h.size_eq
  cases h with
  | apart held held' => trivial
  | renamed k text => exact hheld.mono (Nat.le_of_eq hsize.symm)
  | expressed k text name => exact hheld.mono (Nat.le_of_eq hsize.symm)

theorem Rebinds.size_le (h : scope.Rebinds slot identifier token slot' later) :
    scope.size ≤ later.size :=
  h.size ▸ Indexed.size_le_register slot

theorem Rebinds.held (h : scope.Rebinds slot identifier token slot' later)
    (hheld : slot.Held scope) : slot'.Held later := by
  rw [h.place]
  exact Nat.lt_of_lt_of_eq (Indexed.register_lt_size hheld) h.size.symm

theorem Rebinds.find?_kept (h : scope.Rebinds slot identifier token slot' later) {key : Key}
    (hkey : key.isToken = false) : later.find? key = scope.find? key :=
  h.find?_of_not_named fun t heq => by simp [heq, Key.isToken] at hkey

theorem size_le_after (operation : Operation) : scope.size ≤ (scope.after operation).size := by
  refine after_cases (motive := fun _ later => scope.size ≤ later.size) ?_ ?_ ?_ ?_ operation
  · exact fun _ => Nat.le_refl _
  · exact fun hresolves => hresolves.size_le
  · exact fun hqualifies => Nat.le_of_eq hqualifies.size_eq.symm
  · exact fun hrebinds => hrebinds.size_le

theorem find?_after {key : Key} (hkey : key.isToken = false) {k : Nat}
    (hfind : scope.find? key = some k) (operation : Operation) :
    (scope.after operation).find? key = some k := by
  refine after_cases (motive := fun _ later => later.find? key = some k) ?_ ?_ ?_ ?_ operation
  · exact fun _ => hfind
  · exact fun hresolves => hresolves.find?_kept hfind
  · exact fun hqualifies => (hqualifies.find? key).trans hfind
  · exact fun hrebinds => (hrebinds.find?_kept hkey).trans hfind

theorem held_of_handed (hindexed : scope.Indexed) {operation : Operation}
    (hheld : operation.Held scope) (hhanded : scope.handed? operation = some slot) :
    slot.Held (scope.after operation) := by
  cases operation with
  | resolve identifier =>
      cases hresult : scope.resolve identifier with
      | error fault => simp [handed?, hresult] at hhanded
      | ok result =>
          simp only [handed?, hresult, Option.some.injEq] at hhanded
          simpa only [after, hresult, ← hhanded] using (resolves_of_ok hresult).held hindexed
  | qualify before identifier qualifier name =>
      cases hresult : scope.qualify before identifier qualifier name with
      | error fault => simp [handed?, hresult] at hhanded
      | ok result =>
          simp only [handed?, hresult, Option.some.injEq] at hhanded
          simpa only [after, hresult, ← hhanded] using
            (qualifies_of_ok hresult).held (hheld before rfl)
  | rebind before identifier token =>
      cases hresult : scope.rebind before identifier token with
      | error fault => simp [handed?, hresult] at hhanded
      | ok result =>
          simp only [handed?, hresult, Option.some.injEq] at hhanded
          simpa only [after, hresult, ← hhanded] using
            (rebinds_of_ok hresult).held (hheld before rfl)

end Scope

/-! ## Many operations -/

namespace Registry

open Scope

variable {registry later : Registry} {operation : Operation}

theorem Admits.held (hadmits : registry.Admits operation) (h : registry.Intact) :
    operation.Held registry.scope := by
  intro slot hslot
  rcases hadmits slot hslot with hhanded | hdetached
  · exact h.held slot hhanded
  · cases slot with
    | registered k => cases hdetached
    | detached held => trivial

theorem Intact.fresh : Intact {} := ⟨.empty, List.forall_mem_nil _⟩

theorem Intact.after (h : registry.Intact) (hadmits : registry.Admits operation) :
    (registry.after operation).Intact where
  indexed := h.indexed.after (hadmits.held h)
  held slot hslot := by
    rcases List.mem_append.mp hslot with hbefore | hhanded
    · exact (h.held slot hbefore).mono (size_le_after operation)
    · exact held_of_handed h.indexed (hadmits.held h) (Option.mem_toList.mp hhanded)

theorem Intact.reaches (h : registry.Intact) (hreaches : registry.Reaches later) :
    later.Intact := by
  induction hreaches with
  | refl => exact h
  | after _ hadmits ih => exact ih.after hadmits

theorem Reaches.extends (h : registry.Reaches later) : later.Extends registry := by
  induction h with
  | refl => exact ⟨Nat.le_refl _, List.Subset.refl _, fun _ hfind => hfind⟩
  | @after between _ operation _ ih =>
      refine ⟨Nat.le_trans ih.size_le (size_le_after operation), ?_, fun hkey hfind => ?_⟩
      · exact List.Subset.trans ih.slots (List.subset_append_left _ _)
      · exact find?_after hkey (ih.kept hkey hfind) operation

end Registry

end GraphQuery
