import GraphQuery.Proofs.Draft.Trail
import GraphQuery.Proofs.Scope.Slots

/-! # Slots of a query

All that a query does with its variables it does by operations on slots that were handed out. The
scope that a subquery or a loop works in, and then gives back, is therefore as sound as the one it
was given, and the slots from before the block and from inside it hold on to their variables. -/

namespace GraphQuery

namespace Registry

open Scope

variable {registry : Registry} {later : Scope} {slot slot' : Slot} {identifier : Identifier}
  {mention : Mention}

/-! ## One use -/

theorem Offers.admits (h : registry.Offers slot) {operation : Operation}
    (hslot : operation.slot? = some slot) : registry.Admits operation := by
  intro other hother
  cases hslot.symm.trans hother
  exact h

theorem reaches_handed (operation : Operation) (hadmits : registry.Admits operation)
    (hafter : registry.scope.after operation = later)
    (hhanded : registry.scope.handed? operation = some slot) :
    registry.Reaches ⟨later, registry.slots ++ [slot]⟩ := by
  have hreaches : registry.Reaches (registry.after operation) := .after .refl hadmits
  rwa [Registry.after, hafter, hhanded] at hreaches

theorem reaches_resolve {resolution : Resolution}
    (h : registry.scope.resolve identifier = .ok (resolution, later)) :
    registry.Reaches ⟨later, registry.slots ++ [resolution.slot]⟩ :=
  reaches_handed (.resolve identifier) (fun _ hslot => nomatch hslot)
    (by simp only [Scope.after, h]) (by simp only [handed?, h])

theorem reaches_qualify {qualifier : String} {name : Option String} {qualified : Qualified}
    (hslot : registry.Offers slot)
    (h : registry.scope.qualify slot identifier qualifier name = .ok (qualified, slot', later)) :
    registry.Reaches ⟨later, registry.slots ++ [slot']⟩ :=
  reaches_handed (.qualify slot identifier qualifier name) (hslot.admits rfl)
    (by simp only [Scope.after, h]) (by simp only [handed?, h])

theorem reaches_rebind {token : Token} (hslot : registry.Offers slot)
    (h : registry.scope.rebind slot identifier token = .ok (slot', later)) :
    registry.Reaches ⟨later, registry.slots ++ [slot']⟩ :=
  reaches_handed (.rebind slot identifier token) (hslot.admits rfl)
    (by simp only [Scope.after, h]) (by simp only [handed?, h])

theorem offers_last (scope : Scope) (slots : List Slot) (slot : Slot) :
    (Registry.mk scope (slots ++ [slot])).Offers slot :=
  .inl (List.mem_append_right slots (List.mem_singleton_self slot))

theorem offers_slotFor (h : registry.Offers slot) :
    registry.Offers (registry.scope.slotFor mention slot) := by
  unfold slotFor
  split
  · exact .inr rfl
  · exact h

theorem reaches_qualifyBy {outcome : Option Qualified} (hslot : registry.Offers slot)
    (h : registry.scope.qualifyBy mention slot = .ok (outcome, slot', later)) :
    ∃ slots, registry.Reaches ⟨later, slots⟩ ∧ (Registry.mk later slots).Offers slot' := by
  rcases qualifyBy_ok h with ⟨-, -, rfl, rfl⟩ | ⟨text, name, qualified, -, -, hqualify⟩
  · exact ⟨registry.slots, .refl, hslot⟩
  · exact ⟨_, reaches_qualify hslot hqualify, offers_last ..⟩

theorem reaches_bindBy (hslot : registry.Offers slot)
    (h : registry.scope.bindBy mention slot = .ok (slot', later)) :
    ∃ slots, registry.Reaches ⟨later, slots⟩ := by
  unfold bindBy at h
  cases hbind : mention.bind with
  | none =>
      rw [hbind] at h
      cases h
      exact ⟨registry.slots, .refl⟩
  | some token =>
      rw [hbind] at h
      exact ⟨_, reaches_rebind hslot h⟩

theorem reaches_use (registry : Registry) (mention : Mention) :
    ∃ slots, registry.Reaches ⟨(registry.scope.use mention).2, slots⟩ := by
  unfold Scope.use
  cases hresolved : registry.scope.resolve mention.identifier with
  | error fault => exact ⟨_, .refl⟩
  | ok result =>
      obtain ⟨resolution, resolved⟩ := result
      have hresolve := reaches_resolve hresolved
      have hslot : (Registry.mk resolved (registry.slots ++ [resolution.slot])).Offers
          (resolved.slotFor mention resolution.slot) := offers_slotFor (offers_last ..)
      dsimp only
      cases hqualified : resolved.qualifyBy mention (resolved.slotFor mention resolution.slot) with
      | error fault => exact ⟨_, hresolve⟩
      | ok result =>
          obtain ⟨qualified, slot, changed⟩ := result
          obtain ⟨slots, hqualify, hoffered⟩ := reaches_qualifyBy hslot hqualified
          dsimp only
          cases hbound : changed.bindBy mention slot with
          | error fault => exact ⟨slots, hresolve.trans hqualify⟩
          | ok result =>
              obtain ⟨slots', hbind⟩ := reaches_bindBy hoffered hbound
              exact ⟨slots', (hresolve.trans hqualify).trans hbind⟩

end Registry

/-! ## Runs -/

theorem Trail.reaches {scope later : Scope} {used : List Moment} (h : Trail scope used later)
    (slots : List Slot) : ∃ slots', (Registry.mk scope slots).Reaches ⟨later, slots'⟩ := by
  induction h generalizing slots with
  | done scope => exact ⟨slots, .refl⟩
  | use moment _ ih =>
      obtain ⟨between, huse⟩ := Registry.reaches_use ⟨moment.known.scope, slots⟩ moment.mention
      obtain ⟨slots', hrest⟩ := ih between
      exact ⟨slots', huse.trans hrest⟩

/-- Each of the uses finds a scope on the way. -/
theorem Trail.at_use {scope later : Scope} {used : List Moment} (h : Trail scope used later)
    {moment : Moment} (hmoment : moment ∈ used) :
    ∃ earlier rest, Trail scope earlier moment.known.scope ∧
      Trail moment.known.scope rest later := by
  obtain ⟨earlier, rest, rfl⟩ := List.append_of_mem hmoment
  obtain ⟨between, hearlier, hrest⟩ := h.split
  cases hrest with
  | use moment hrest => exact ⟨earlier, moment :: rest, hearlier, .use moment hrest⟩

namespace Draft

/-- The drafts there can be: one that is fresh, one that a step is taken in, one that stands inside
a block of another, and one that takes over what has been built in a branch. -/
inductive Arises : Draft → Prop
  | fresh (catalog : Catalog) (settings : Settings) : Arises { catalog, settings }
  | step {draft : Draft} (h : draft.Arises) (s : Step) : Arises (Draft.step s draft)
  | subquery {draft : Draft} (h : draft.Arises) (hdepth : draft.depthFault? = none) :
      Arises (draft.inner draft.known.scope)
  | loop {draft after : Draft} (h : draft.Arises) (hdepth : draft.depthFault? = none)
      {item list : Identifier} {texts : String × String}
      (hheading : draft.resolving (heading item list) = (.ok texts, after)) :
      Arises (after.inner after.known.scope)
  | branch {draft : Draft} (h : draft.Arises) (hdepth : draft.depthFault? = none) :
      Arises (draft.inner {})
  | absorb {draft inside : Draft} (h : draft.Arises) (hinside : inside.Arises) :
      Arises (draft.absorb inside)

theorem Arises.reaches {draft : Draft} (h : draft.Arises) :
    ∃ slots, Registry.Reaches {} ⟨draft.known.scope, slots⟩ := by
  induction h with
  | fresh catalog settings => exact ⟨[], .refl⟩
  | @step draft _ s ih =>
      obtain ⟨slots, hbefore⟩ := ih
      obtain ⟨slots', hstep⟩ := (leavesTrail s draft).reaches slots
      exact ⟨slots', hbefore.trans hstep⟩
  | subquery _ _ ih => exact ih
  | @loop draft after _ _ item list texts hheading ih =>
      obtain ⟨slots, hbefore⟩ := ih
      obtain ⟨slots', hwalk⟩ := (trail_walk draft (.heading item list)).reaches slots
      rw [hheading] at hwalk
      exact ⟨slots', hbefore.trans hwalk⟩
  | branch => exact ⟨[], .refl⟩
  | absorb _ _ ih => exact ih

/-- However long the operations on slots that were handed out go on, each key leads to a variable
that is there, that of a text or a field always to the same one and to none of another's, and every
slot from earlier leads to its variable. The operations of a query are of this kind, wherever a
subquery or a loop passes its scope on and takes it back. -/
theorem slots_lead_to_variables :
    (∀ registry, Registry.Reaches {} registry →
      registry.Intact ∧ ∀ later, registry.Reaches later →
        later.Extends registry ∧
          ∀ k, .registered k ∈ registry.slots → ∃ v, later.scope.at? k = some v) ∧
    (∀ draft : Draft, draft.Arises → ∃ slots, Registry.Reaches {} ⟨draft.known.scope, slots⟩) ∧
    ∀ (draft : Draft) (steps : List Step) (slots : List Slot),
      (∃ after, Registry.Reaches ⟨draft.known.scope, slots⟩
        ⟨(run steps draft).known.scope, after⟩) ∧
      ∀ moment ∈ ownUses steps draft, ∃ between after,
        Registry.Reaches ⟨draft.known.scope, slots⟩ ⟨moment.known.scope, between⟩ ∧
        Registry.Reaches ⟨moment.known.scope, between⟩
          ⟨(run steps draft).known.scope, after⟩ := by
  refine ⟨fun registry hregistry => ?_, fun draft => Arises.reaches,
    fun draft steps slots => ⟨(trail draft steps).reaches slots, fun moment hmoment => ?_⟩⟩
  · have hintact := Registry.Intact.fresh.reaches hregistry
    refine ⟨hintact, fun later hlater => ⟨hlater.extends, fun k hk => ?_⟩⟩
    exact Scope.lt_size_iff.mp
      ((hintact.reaches hlater).held (.registered k) (hlater.extends.slots hk))
  · obtain ⟨earlier, rest, hearlier, hrest⟩ := (trail draft steps).at_use hmoment
    obtain ⟨between, hbetween⟩ := hearlier.reaches slots
    obtain ⟨after, hafter⟩ := hrest.reaches between
    exact ⟨between, after, hbetween, hafter⟩

/-- A parameter gets a place when it is bound to a token, and the field of the token is used. -/
def boundParameter : Registry :=
  ((Registry.after {} (.resolve (.parameter "rows" .null))).after
    (.rebind (.detached { expression := some "$rows" }) (.parameter "rows" .null) ⟨1⟩)).after
      (.resolve (.field ⟨1⟩ ⟨"age", "years"⟩))

/-- The token is replaced by another, and the field given an alias. -/
def replacedToken : Registry :=
  (boundParameter.after (.rebind (.registered 0) (.token ⟨1⟩ none) ⟨2⟩)).after
    (.qualify (.registered 1) (.field ⟨1⟩ ⟨"age", "years"⟩) "age" none)

/-- The token is bound in a subquery, used in a loop there, and used again outside. -/
def sharedSteps : List Step :=
  [.token,
    .subquery [
      .call (.unwind (.parameter "rows" .null) { identifier := .name "row", bind := some ⟨1⟩ }),
      .forEach (.name "x") (.ofToken ⟨1⟩) [.delete true [.name "x"]]],
    .call (.project .returning false [{ identifier := .ofToken ⟨1⟩ }])]

theorem slots_lead_to_variables_replacedToken :
    (∃ v, replacedToken.scope.at? 0 = some v) ∧
    (∃ slots, Registry.Reaches {} ⟨(run sharedSteps {}).known.scope, slots⟩) ∧
    ∃ moment : Moment, moment.mention.identifier.text? = some "x" ∧ ∃ between after,
      Registry.Reaches {} ⟨moment.known.scope, between⟩ ∧
      Registry.Reaches ⟨moment.known.scope, between⟩
        ⟨(run sharedSteps {}).known.scope, after⟩ := by
  have hbound : Registry.Reaches {} boundParameter :=
    .after (.after (.after .refl (by decide)) (by decide)) (by decide)
  have hreplaced : boundParameter.Reaches replacedToken :=
    .after (.after .refl (by decide)) (by decide)
  have hcount : 4 < (ownUses sharedSteps {}).length := by decide
  refine ⟨((slots_lead_to_variables.1 _ hbound).2 _ hreplaced).2 0 (by decide), ?_,
    (ownUses sharedSteps {})[4], rfl, ?_⟩
  · exact slots_lead_to_variables.2.1 _ (.step (.step (.step (.fresh {} {}) _) _) _)
  · exact (slots_lead_to_variables.2.2 {} sharedSteps []).2 _ (List.getElem_mem hcount)

end Draft

end GraphQuery
