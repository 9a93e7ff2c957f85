import GraphQuery.Proofs.Scope.Keyed

/-! # Carriers of a destination

A bind gives a destination to one variable and takes it from none. A token is the destination of
several variables only if it has been bound to one while another had it already. -/

namespace GraphQuery

namespace Scope

/-- The token is the destination of the variable. -/
def Carries (scope : Scope) (t : Token) (k : Nat) : Prop :=
  (scope.at? k).bind Variable.destination = some t

instance (scope : Scope) (t : Token) (k : Nat) : Decidable (scope.Carries t k) :=
  inferInstanceAs (Decidable (_ = _))

/-- The operation binds a token to a variable while another one has it as its destination. -/
def Operation.Doubles (scope : Scope) : Operation → Prop
  | .rebind slot _ token =>
      token ∉ scope.retired ∧ ∃ k < scope.size, scope.Carries token k ∧ slot ≠ .registered k
  | .resolve _ | .qualify _ _ _ _ => False

instance (scope : Scope) : (operation : Operation) → Decidable (operation.Doubles scope)
  | .rebind slot _ token =>
      inferInstanceAs (Decidable (token ∉ scope.retired ∧
        ∃ k < scope.size, scope.Carries token k ∧ slot ≠ .registered k))
  | .resolve _ | .qualify _ _ _ _ => .isFalse id

variable {scope later : Scope} {t token : Token} {k : Nat} {slot slot' : Slot}
  {identifier : Identifier}

/-! ## Destinations after an operation -/

theorem carries_modifyAt (i : Nat) {change : Variable → Variable}
    (hchange : ∀ v, (change v).destination = v.destination) :
    (scope.modifyAt i change).Carries t k ↔ scope.Carries t k := by
  unfold Carries
  rw [at?_modifyAt]
  split
  · cases scope.at? k with
    | none => rfl
    | some v => simp [hchange v]
  · rfl

theorem carries_refreshed (i : Nat) :
    (scope.refreshed identifier i).Carries t k ↔ scope.Carries t k :=
  carries_modifyAt i (refresh_destination scope identifier i)

theorem Qualifies.carries (h : scope.Qualifies slot slot' later) :
    later.Carries t k ↔ scope.Carries t k := by
  cases h with
  | apart held held' => rfl
  | renamed i text => exact carries_modifyAt i fun _ => rfl
  | expressed i text name =>
      have hpin : ∀ changed : Scope, (changed.pin (.registered i)).Carries t k ↔
          changed.Carries t k := fun changed => by rw [Carries, at?_pin, Carries]
      rw [hpin]
      exact carries_modifyAt i fun _ => rfl

/-- The variable in the slot of a bind gets the token in place of what it had, and every other
variable keeps its destination. -/
theorem Rebinds.carries (h : scope.Rebinds slot identifier token slot' later)
    (hheld : slot.Held scope) :
    later.Carries t k ↔ if slot' = .registered k then t = token else scope.Carries t k := by
  have hplace := h.place
  subst hplace
  unfold Carries
  rw [h.at?]
  by_cases hsame : k = (scope.register slot).1
  · subst hsame
    obtain ⟨v, hv⟩ := lt_size_iff.mp (Indexed.register_lt_size hheld)
    simp [hv, eq_comm]
  · rw [if_neg hsame, if_neg fun heq => hsame (Slot.registered.inj heq).symm]

/-! ## Sole carriers -/

/-- Each token is the destination of one variable at most, and of none before it has been used. -/
structure Sole (scope : Scope) : Prop where
  indexed : scope.Indexed
  seen : ∀ {t k}, scope.Carries t k → t ∈ scope.retired ∨ ∃ i, scope.find? (.token t) = some i
  sole : ∀ {t k k'}, scope.Carries t k → scope.Carries t k' → k = k'

namespace Sole

theorem empty : Sole {} where
  indexed := .empty
  seen h := by cases h
  sole h := by cases h

theorem lt_size (h : scope.Carries t k) : k < scope.size := by
  refine lt_size_iff.mpr ?_
  obtain ⟨v, hv, -⟩ := Option.bind_eq_some_iff.mp h
  exact ⟨v, hv⟩

theorem of_same (h : scope.Sole) (hindexed : later.Indexed)
    (hcarries : ∀ t k, later.Carries t k ↔ scope.Carries t k)
    (hfind : ∀ t, later.find? (.token t) = scope.find? (.token t))
    (hretired : later.retired = scope.retired) : later.Sole where
  indexed := hindexed
  seen {t k} hk := by
    rw [hretired, hfind]
    exact h.seen ((hcarries t k).mp hk)
  sole hk hk' := h.sole ((hcarries _ _).mp hk) ((hcarries _ _).mp hk')

/-- A variable that is introduced with a destination is the first to have it. -/
theorem resolve (h : scope.Sole) {resolution : Resolution}
    (hresolve : scope.resolve identifier = .ok (resolution, later)) : later.Sole := by
  obtain ⟨hlive, -⟩ := resolve_eq_ok_iff.mp hresolve
  have hresolves := resolves_of_ok hresolve
  have hindexed := h.indexed.resolve hresolves
  cases hresolves with
  | apart hkey => exact h
  | @found key i hkey hfind =>
      exact h.of_same hindexed (fun _ _ => carries_refreshed i) (fun _ => find?_modifyAt ..) rfl
  | @introduced key hkey hfind =>
      have hnew : ∀ {t}, (scope.beginning identifier).destination = some t →
          key = .token t ∧ ∀ k, ¬ scope.Carries t k := by
        intro t ht
        cases identifier with
        | token t' descriptor =>
            cases hkey
            cases ht
            refine ⟨rfl, fun k hk => ?_⟩
            rcases h.seen hk with hretired | ⟨i, hi⟩
            · exact hlive t rfl hretired
            · cases hfind.symm.trans hi
        | name _ | raw _ | field _ _ | typeValue _ | parameter _ _ | anonymous => cases ht
      have hcases : ∀ {t k},
          (scope.introduce key (scope.beginning identifier)).Carries t k →
            k = scope.size ∧ (scope.beginning identifier).destination = some t ∨
              scope.Carries t k := by
        intro t k hk
        rw [Carries, at?_introduce] at hk
        split at hk
        · next heq => exact .inl ⟨heq, hk⟩
        · exact .inr hk
      refine ⟨hindexed, fun {t k} hk => ?_, fun {t k k'} hk hk' => ?_⟩
      · rw [retired_introduce]
        rcases hcases hk with ⟨-, ht⟩ | hold
        · exact .inr ⟨scope.size, by rw [find?_introduce, if_pos (hnew ht).1.symm]⟩
        · refine (h.seen hold).imp_right fun ⟨i, hi⟩ => ?_
          rw [find?_introduce]
          split
          · exact ⟨_, rfl⟩
          · exact ⟨i, hi⟩
      · rcases hcases hk with ⟨rfl, ht⟩ | hold <;> rcases hcases hk' with ⟨rfl, ht'⟩ | hold'
        · rfl
        · exact absurd hold' ((hnew ht).2 _)
        · exact absurd hold ((hnew ht').2 _)
        · exact h.sole hold hold'

theorem rebind (h : scope.Sole) (hheld : slot.Held scope)
    (hrebinds : scope.Rebinds slot identifier token slot' later)
    (hdoubles : ∀ k, scope.Carries token k → slot = .registered k) : later.Sole where
  indexed := h.indexed.rebind hheld hrebinds
  seen {t k} hk := by
    by_cases htoken : t = token
    · subst htoken
      exact .inr ⟨_, (hrebinds.find? _).trans (if_pos rfl)⟩
    · have hold : scope.Carries t k := by
        have hkept := (hrebinds.carries hheld).mp hk
        split at hkept
        · exact absurd hkept htoken
        · exact hkept
      rw [hrebinds.retired, hrebinds.find?, if_neg fun heq => htoken (Key.token.inj heq)]
      rcases h.seen hold with hretired | ⟨i, hi⟩
      · exact .inl (.inr hretired)
      · split
        · next hreplaced =>
            obtain ⟨old, hold, heq⟩ := Option.map_eq_some_iff.mp hreplaced
            cases heq
            exact .inl (.inl hold)
        · exact .inr ⟨i, hi⟩
  sole {t k k'} hk hk' := by
    -- Whoever had the token before was in the slot, which has been given a place.
    have hplace : ∀ {i}, scope.Carries token i → slot' = .registered i := by
      intro i hi
      have hslot := hdoubles i hi
      subst hslot
      exact hrebinds.place
    rw [hrebinds.carries hheld] at hk hk'
    split at hk <;> split at hk'
    · next hslot hslot' => exact Slot.registered.inj (hslot.symm.trans hslot')
    · next hother =>
        subst hk
        exact absurd (hplace hk') hother
    · next hother _ =>
        subst hk'
        exact absurd (hplace hk) hother
    · exact h.sole hk hk'

theorem after (h : scope.Sole) {operation : Operation} (hheld : operation.Held scope)
    (hdoubles : ¬ operation.Doubles scope) : (scope.after operation).Sole := by
  revert hheld hdoubles
  refine after_ok_cases (motive := fun operation later =>
    operation.Held scope → ¬ operation.Doubles scope → later.Sole) ?_ ?_ ?_ ?_ operation
  · exact fun _ _ _ => h
  · exact fun hresolve _ _ => h.resolve hresolve
  · intro slot identifier qualifier name qualified slot' later hqualify hheld _
    have hqualifies := qualifies_of_ok hqualify
    exact h.of_same (h.indexed.qualify (hheld _ rfl) hqualifies) (fun _ _ => hqualifies.carries)
      (fun _ => hqualifies.find? _) hqualifies.retired
  · intro slot identifier token slot' later hrebind hheld hdoubles
    have hrebinds := rebinds_of_ok hrebind
    refine h.rebind (hheld _ rfl) hrebinds fun k hk => ?_
    by_contra hother
    exact hdoubles ⟨hrebinds.live, k, lt_size hk, hk, hother⟩

end Sole

/-! ## Reachable scopes -/

/-- A bind makes its token the destination of its variable and leaves the destinations of all
others as they are. So as long as no token is bound to a variable while another one has it, no two
variables have one destination. -/
theorem destinations_change_by_binds {history : List Operation}
    (hheld : Along (fun scope operation => operation.Held scope) {} history) :
    (Along (fun scope operation => ¬ operation.Doubles scope) {} history →
      ∀ t k k', (afterAll {} history).Carries t k → (afterAll {} history).Carries t k' → k = k') ∧
    ∀ {slot slot' : Slot} {identifier : Identifier} {token : Token} {bound : Scope},
      slot.Held (afterAll {} history) →
      (afterAll {} history).rebind slot identifier token = .ok (slot', bound) →
      ∀ t k, bound.Carries t k ↔
        if slot' = .registered k then t = token else (afterAll {} history).Carries t k := by
  refine ⟨fun hdoubles t k k' => ?_, fun hslot hbound t k => (rebinds_of_ok hbound).carries hslot⟩
  have hboth := hheld.and hdoubles
  exact (afterAll_keeps (fun _ _ hscope hoperation => hscope.after hoperation.1 hoperation.2)
    Sole.empty hboth).sole

/-- Two tokens that have each been bound to a text and a parameter, the first in turn replaced by
a third. -/
def apartHistory : List Operation :=
  [.resolve (.name "n"), .rebind (.registered 0) (.name "n") ⟨1⟩,
    .resolve (.parameter "rows" .null),
    .rebind (.detached { expression := some "$rows" }) (.parameter "rows" .null) ⟨2⟩,
    .resolve (.token ⟨1⟩ none), .qualify (.registered 0) (.token ⟨1⟩ none) "m" none,
    .rebind (.registered 0) (.token ⟨1⟩ none) ⟨3⟩, .resolve (.token ⟨4⟩ none)]

/-- The scope after the second token has been bound to the variable of the fourth as well. -/
def doubledScope : Scope :=
  (afterAll {} apartHistory).after (.rebind (.registered 2) (.token ⟨4⟩ none) ⟨2⟩)

theorem destinations_change_by_binds_apartHistory :
    (∀ k k', (afterAll {} apartHistory).Carries ⟨2⟩ k → (afterAll {} apartHistory).Carries ⟨2⟩ k' →
      k = k') ∧
    (∀ k, doubledScope.Carries ⟨2⟩ k ↔
      if Slot.registered 2 = .registered k then (⟨2⟩ : Token) = ⟨2⟩
      else (afterAll {} apartHistory).Carries ⟨2⟩ k) := by
  obtain ⟨hsole, hbound⟩ := @destinations_change_by_binds apartHistory (by decide)
  exact ⟨hsole (by decide) ⟨2⟩,
    @hbound (.registered 2) (.registered 2) (.token ⟨4⟩ none) ⟨2⟩ _ (by decide) rfl ⟨2⟩⟩

/-- A token that has a variable of its own and is then bound to a text. -/
def doubledHistory : List Operation :=
  [.resolve (.token ⟨1⟩ none), .resolve (.name "n"), .rebind (.registered 1) (.name "n") ⟨1⟩]

/-- A token that is bound to a second variable is not taken from the first. -/
theorem destination_doubled_doubledHistory :
    Along (fun scope operation => operation.Held scope) {} doubledHistory ∧
    (afterAll {} doubledHistory).find? (.token ⟨1⟩) = some 1 ∧
    (afterAll {} doubledHistory).Carries ⟨1⟩ 0 ∧ (afterAll {} doubledHistory).Carries ⟨1⟩ 1 := by
  decide

end Scope

end GraphQuery
