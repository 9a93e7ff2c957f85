import GraphQuery.Proofs.Scope.Identity

/-! # Retirement

A token that is retired stays so: nothing reaches a variable by it again, whatever is resolved or
bound later. The token in its place leads to the variable until a bind names it. -/

namespace GraphQuery

namespace Scope

variable {scope later : Scope} {t : Token} {k : Nat} {identifier : Identifier}
  {slot slot' : Slot} {token : Token}

theorem replacedToken?_ne {old : Token} (h : replacedToken? identifier token = some old) :
    old ≠ token := by
  cases identifier with
  | token t descriptor =>
      simp only [replacedToken?] at h
      split at h
      · cases h
      · next hne =>
          cases h
          exact hne
  | _ => cases h

/-! ## Retired tokens -/

theorem resolve_retired (h : t ∈ scope.retired) (htoken : identifier.token? = some t) :
    scope.resolve identifier = .error (.unresolvedIdentifier t.display) := by
  rw [resolve_eq]
  simp only [htoken, if_pos h]

theorem rebind_retired (h : t ∈ scope.retired) (slot : Slot) (identifier : Identifier) :
    scope.rebind slot identifier t = .error (.unresolvedIdentifier t.display) := by
  rw [rebind_eq, if_pos h]

theorem mem_retired_after (h : t ∈ scope.retired) (operation : Operation) :
    t ∈ (scope.after operation).retired := by
  refine after_cases (motive := fun _ later => t ∈ later.retired) ?_ ?_ ?_ ?_ operation
  · exact fun _ => h
  · exact fun hresolves => hresolves.retired ▸ h
  · exact fun hqualifies => hqualifies.retired ▸ h
  · exact fun hrebinds => (hrebinds.retired t).mpr (.inr h)

theorem mem_retired_afterAll (h : t ∈ scope.retired) (operations : List Operation) :
    t ∈ (scope.afterAll operations).retired :=
  afterAll_invariant (motive := fun scope => t ∈ scope.retired) h fun _ hscope operation _ =>
    mem_retired_after hscope operation

/-! ## Tokens that lead to variables -/

/-- No token that leads to a variable is retired. -/
def Parted (scope : Scope) : Prop :=
  ∀ t ∈ scope.retired, scope.find? (.token t) = none

namespace Parted

theorem empty : Parted {} := fun _ h => by cases h

theorem of_same (h : scope.Parted) (hfind : ∀ key, later.find? key = scope.find? key)
    (hretired : later.retired = scope.retired) : later.Parted := by
  intro t ht
  rw [hfind]
  exact h t (hretired ▸ ht)

/-- Only a live token comes to lead to a new variable. -/
theorem resolve (h : scope.Parted) {resolution : Resolution}
    (hresolve : scope.resolve identifier = .ok (resolution, later)) : later.Parted := by
  obtain ⟨hlive, -⟩ := resolve_eq_ok_iff.mp hresolve
  cases resolves_of_ok hresolve with
  | apart hkey => exact h
  | found hkey hfind => exact h.of_same (find?_modifyAt _ _) rfl
  | @introduced key hkey hfind =>
      intro t ht
      rw [retired_introduce] at ht
      have hother : Key.token t ≠ key := by
        rintro rfl
        exact hlive t (Identifier.token?_of_key? hkey) ht
      rw [find?_introduce, if_neg hother]
      exact h t ht

/-- The token of a bind is live, and the one it replaces leads nowhere. -/
theorem rebind (h : scope.Parted) (hrebinds : scope.Rebinds slot identifier token slot' later) :
    later.Parted := by
  intro t ht
  have hold := (hrebinds.retired t).mp ht
  have hother : t ≠ token := by
    rintro rfl
    exact hold.elim (fun hreplaced => replacedToken?_ne hreplaced rfl) hrebinds.live
  rw [hrebinds.find?, if_neg fun heq => hother (Key.token.inj heq)]
  split
  · rfl
  · next hkept =>
      have hkept : replacedToken? identifier token ≠ some t := fun hreplaced =>
        hkept (congrArg (Option.map Key.token) hreplaced)
      exact h t (hold.resolve_left hkept)

theorem after (h : scope.Parted) (operation : Operation) : (scope.after operation).Parted := by
  refine after_ok_cases (motive := fun _ later => later.Parted) ?_ ?_ ?_ ?_ operation
  · exact fun _ => h
  · exact fun hresolve => h.resolve hresolve
  · intro slot identifier qualifier name qualified slot' later hqualify
    have hqualifies := qualifies_of_ok hqualify
    exact h.of_same hqualifies.find? hqualifies.retired
  · exact fun hrebind => h.rebind (rebinds_of_ok hrebind)

theorem afterAll (h : scope.Parted) (operations : List Operation) :
    (scope.afterAll operations).Parted :=
  afterAll_invariant h fun _ hscope operation _ => Parted.after hscope operation

end Parted

/-- The token is live and leads to the variable. -/
structure Leads (scope : Scope) (t : Token) (k : Nat) : Prop where
  live : t ∉ scope.retired
  found : scope.find? (.token t) = some k

namespace Leads

theorem resolve_eq (h : scope.Leads t k) (descriptor : Option Descriptor) :
    scope.resolve (.token t descriptor) = .ok (⟨.registered k, false⟩, scope) := by
  refine resolve_eq_ok_iff.mpr ⟨fun t' ht' => ?_, ?_⟩
  · cases ht'
    exact h.live
  · simp only [resolved, Identifier.key?, h.found]
    exact congrArg _ (modifyAt_same k)

theorem of_same (h : scope.Leads t k) (hfind : later.find? (.token t) = scope.find? (.token t))
    (hretired : later.retired = scope.retired) : later.Leads t k :=
  ⟨hretired ▸ h.live, hfind.trans h.found⟩

theorem resolve (h : scope.Leads t k) {resolution : Resolution}
    (hresolves : scope.Resolves identifier resolution later) : later.Leads t k := by
  refine h.of_same ?_ hresolves.retired
  cases hresolves with
  | apart hkey => rfl
  | found hkey hfind => exact find?_modifyAt _ _ _
  | @introduced key hkey hfind =>
      have hother : Key.token t ≠ key := by
        rintro rfl
        cases hfind.symm.trans h.found
      rw [find?_introduce, if_neg hother]

/-- A bind that names other tokens makes no difference. -/
theorem rebind (h : scope.Leads t k) (hrebinds : scope.Rebinds slot identifier token slot' later)
    (hmoves : ¬ (token = t ∨ identifier.key? = some (.token t))) : later.Leads t k where
  live ht := ((hrebinds.retired t).mp ht).elim
    (fun hreplaced => hmoves (.inr (replacedToken?_eq_some hreplaced))) h.live
  found := by
    rw [hrebinds.find?_of_not_named, h.found]
    intro t' heq
    cases heq
    exact hmoves

/-- A token leads to the variable it has been bound to. -/
theorem of_rebinds (hrebinds : scope.Rebinds slot identifier token slot' later) :
    later.Leads token (scope.register slot).1 where
  live ht := ((hrebinds.retired token).mp ht).elim
    (fun hreplaced => replacedToken?_ne hreplaced rfl) hrebinds.live
  found := (hrebinds.find? _).trans (if_pos rfl)

theorem after (h : scope.Leads t k) {operation : Operation} (hmoves : ¬ operation.Moves t) :
    (scope.after operation).Leads t k := by
  revert hmoves
  refine after_cases (motive := fun operation later => ¬ operation.Moves t → later.Leads t k)
    ?_ ?_ ?_ ?_ operation
  · exact fun _ _ => h
  · exact fun hresolves _ => h.resolve hresolves
  · exact fun hqualifies _ => h.of_same (hqualifies.find? _) hqualifies.retired
  · exact fun hrebinds hmoves => h.rebind hrebinds hmoves

theorem afterAll (h : scope.Leads t k) {operations : List Operation}
    (hmoves : ∀ operation ∈ operations, ¬ operation.Moves t) :
    (scope.afterAll operations).Leads t k :=
  afterAll_invariant (motive := fun scope => scope.Leads t k) h fun _ hscope operation hmem =>
    hscope.after (hmoves operation hmem)

end Leads

/-! ## A token in place of another -/

/-- Once a bind has put one token in the place of another, the old one is never resolved or bound
again, and the new one leads to the variable until a bind names it. In no scope is a token both
retired and in use. -/
theorem retirement_final (history : List Operation) :
    (∀ t ∈ (afterAll {} history).retired, (afterAll {} history).find? (.token t) = none) ∧
    ∀ {slot slot' : Slot} {old new : Token} {descriptor : Option Descriptor} {bound : Scope},
      new ≠ old →
      (afterAll {} history).rebind slot (.token old descriptor) new = .ok (slot', bound) →
      ∀ later : List Operation,
        (∀ identifier : Identifier, identifier.token? = some old →
          (bound.afterAll later).resolve identifier =
            .error (.unresolvedIdentifier old.display)) ∧
        (∀ slot identifier, (bound.afterAll later).rebind slot identifier old =
          .error (.unresolvedIdentifier old.display)) ∧
        ((∀ operation ∈ later, ¬ operation.Moves new) → ∀ descriptor,
          (bound.afterAll later).resolve (.token new descriptor) =
            .ok (⟨slot', false⟩, bound.afterAll later)) := by
  refine ⟨Parted.empty.afterAll history, ?_⟩
  intro slot slot' old new descriptor bound hne hbound later
  have hrebinds := rebinds_of_ok hbound
  have hreplaced : replacedToken? (.token old descriptor) new = some old := if_neg hne.symm
  have hretired : old ∈ (bound.afterAll later).retired :=
    mem_retired_afterAll ((hrebinds.retired old).mpr (.inl hreplaced)) later
  refine ⟨fun identifier htoken => resolve_retired hretired htoken,
    fun slot identifier => rebind_retired hretired slot identifier, fun hmoves descriptor => ?_⟩
  have hleads := (Leads.of_rebinds hrebinds).afterAll hmoves
  rw [hleads.resolve_eq, hrebinds.place]

/-- A token that gives way to a second one, as that does to a third. -/
def replacedHistory : List Operation :=
  [.resolve (.token ⟨1⟩ none), .qualify (.registered 0) (.token ⟨1⟩ none) "p" none,
    .resolve (.field ⟨1⟩ ⟨"age", "age"⟩), .rebind (.registered 0) (.token ⟨1⟩ none) ⟨2⟩]

/-- Tries to use the first two tokens again, and binds of other variables and tokens. -/
def laterOperations : List Operation :=
  [.rebind (.registered 0) (.field ⟨2⟩ ⟨"age", "age"⟩) ⟨1⟩, .resolve (.token ⟨2⟩ none),
    .resolve (.name "n"), .rebind (.registered 2) (.name "n") ⟨4⟩,
    .rebind (.detached {}) (.token ⟨4⟩ none) ⟨5⟩, .qualify (.registered 0) .anonymous "q" none]

/-- The scope after the second token has given way and the later operations have been tried. -/
def replacedScope : Scope :=
  ((afterAll {} replacedHistory).after
    (.rebind (.registered 0) (.token ⟨2⟩ none) ⟨3⟩)).afterAll laterOperations

theorem retirement_final_replacedScope :
    (∀ t ∈ (afterAll {} replacedHistory).retired,
      (afterAll {} replacedHistory).find? (.token t) = none) ∧
    replacedScope.resolve (.field ⟨2⟩ ⟨"age", "age"⟩) =
      .error (.unresolvedIdentifier (Token.mk 2).display) ∧
    replacedScope.rebind (.registered 2) (.name "n") ⟨2⟩ =
      .error (.unresolvedIdentifier (Token.mk 2).display) ∧
    replacedScope.resolve (.token ⟨3⟩ none) = .ok (⟨.registered 0, false⟩, replacedScope) := by
  obtain ⟨hparted, hfinal⟩ := retirement_final replacedHistory
  obtain ⟨hresolve, hrebind, hleads⟩ :=
    @hfinal (.registered 0) (.registered 0) ⟨2⟩ ⟨3⟩ none _ (by decide) rfl laterOperations
  exact ⟨hparted, hresolve _ rfl, hrebind _ _, hleads (by decide) none⟩

end Scope

end GraphQuery
