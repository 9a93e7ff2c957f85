import GraphQuery.Proofs.Scope.Identity

/-! # Keyed variables

What the operations of a scope do to the variable that one key leads to, as far as a property of
that variable is concerned. -/

namespace GraphQuery

namespace Scope

variable {scope later : Scope} {key : Key} {P : Variable → Prop} {slot slot' : Slot}
  {identifier : Identifier} {token : Token}

/-! ## Changes of one variable -/

/-- A qualification changes the texts of at most one variable. -/
theorem Qualifies.at?_cases (h : scope.Qualifies slot slot' later) (k : Nat) :
    later.at? k = scope.at? k ∨ slot = .registered k ∧ ∃ change : Variable → Variable,
      (∀ v, ∃ name expression, change v = { v with name, expression }) ∧
        later.at? k = (scope.at? k).map change := by
  by_cases hslot : slot = .registered k
  · refine .inr ⟨hslot, ?_⟩
    subst hslot
    cases h with
    | renamed _ text =>
        exact ⟨_, fun v => ⟨some text, v.expression, rfl⟩, (at?_modifyAt ..).trans (if_pos rfl)⟩
    | expressed _ text name =>
        refine ⟨_, fun v => ⟨name <|> v.name, some text, rfl⟩, ?_⟩
        rw [at?_pin, at?_modifyAt, if_pos rfl]
  · exact .inl (h.at?_of_ne hslot)

/-- Of the variables there were, a bind changes at most the destination of one. -/
theorem Rebinds.at?_cases {k : Nat} (h : scope.Rebinds slot identifier token slot' later)
    (hlt : k < scope.size) :
    later.at? k = scope.at? k ∨ slot = .registered k ∧
      later.at? k = (scope.at? k).map fun v => { v with destination := some token } := by
  by_cases hslot : slot = .registered k
  · subst hslot
    exact .inr ⟨rfl, (h.at? k).trans (if_pos rfl)⟩
  · exact .inl (h.at?_of_ne hlt hslot)

theorem refresh_destination (scope : Scope) (identifier : Identifier) (k : Nat) (v : Variable) :
    (scope.refresh identifier k v).destination = v.destination := by
  cases identifier with
  | field owner path =>
      simp only [refresh]
      split <;> rfl
  | _ => rfl

/-! ## The variable of a key -/

/-- The variable that the key leads to, if any, has the property. -/
structure Has (scope : Scope) (key : Key) (P : Variable → Prop) : Prop where
  indexed : scope.Indexed
  holds : ∀ {k v}, scope.find? key = some k → scope.at? k = some v → P v

namespace Has

theorem empty (key : Key) (P : Variable → Prop) : Has {} key P where
  indexed := .empty
  holds h := by simp at h

theorem exists_variable (h : scope.Has key P) {k : Nat} (hfind : scope.find? key = some k) :
    ∃ v, scope.at? k = some v ∧ P v := by
  obtain ⟨v, hv⟩ := lt_size_iff.mp (h.indexed.lt_size hfind)
  exact ⟨v, hv, h.holds hfind hv⟩

theorem resolve (h : scope.Has key P) {resolution : Resolution}
    (hresolves : scope.Resolves identifier resolution later)
    (hbeginning : identifier.key? = some key → P (scope.beginning identifier))
    (hrefresh : ∀ {own k v}, identifier.key? = some own → scope.find? own = some k →
      scope.find? key = some k → P v → P (scope.refresh identifier k v)) : later.Has key P := by
  refine ⟨h.indexed.resolve hresolves, fun {k v} hfind hv => ?_⟩
  cases hresolves with
  | apart hkey => exact h.holds hfind hv
  | found hkey hold =>
      rw [refreshed, find?_modifyAt] at hfind
      rw [refreshed, at?_modifyAt] at hv
      split at hv
      · next heq =>
          subst heq
          obtain ⟨v', hv', rfl⟩ := Option.map_eq_some_iff.mp hv
          exact hrefresh hkey hold hfind (h.holds hfind hv')
      · exact h.holds hfind hv
  | introduced hkey hold =>
      rw [find?_introduce] at hfind
      rw [at?_introduce] at hv
      split at hfind
      · next heq =>
          cases hfind
          rw [if_pos rfl] at hv
          cases hv
          exact hbeginning (heq ▸ hkey)
      · rw [if_neg (Nat.ne_of_lt (h.indexed.lt_size hfind))] at hv
        exact h.holds hfind hv

/-- The variable of a text begins as the text, and is never refreshed. -/
theorem resolve_text {text : String} (h : scope.Has (.text text) P)
    (hbeginning : P { expression := some text }) {resolution : Resolution}
    (hresolves : scope.Resolves identifier resolution later) : later.Has (.text text) P := by
  refine h.resolve hresolves (fun hkey => ?_) fun hkey hown hfind hv => ?_
  · cases identifier with
    | name _ | raw _ =>
        cases hkey
        exact hbeginning
    | _ => cases hkey
  · rw [refresh_eq_self hkey hown (h.indexed.not_isField hfind)]
    exact hv

theorem qualify (h : scope.Has key P) (hheld : slot.Held scope)
    (hqualifies : scope.Qualifies slot slot' later)
    (hchange : ∀ {k}, scope.find? key = some k → slot = .registered k →
      ∀ v name expression, P v → P { v with name, expression }) : later.Has key P := by
  refine ⟨h.indexed.qualify hheld hqualifies, fun {k v} hfind hv => ?_⟩
  rw [hqualifies.find?] at hfind
  rcases hqualifies.at?_cases k with hat | ⟨hslot, change, htexts, hat⟩
  · exact h.holds hfind (hat ▸ hv)
  · rw [hat] at hv
    obtain ⟨v', hv', rfl⟩ := Option.map_eq_some_iff.mp hv
    obtain ⟨name, expression, hsame⟩ := htexts v'
    rw [hsame]
    exact hchange hfind hslot v' name expression (h.holds hfind hv')

/-- A bind of another token than the key, which the bind does not replace either. -/
theorem rebind (h : scope.Has key P) (hheld : slot.Held scope)
    (hrebinds : scope.Rebinds slot identifier token slot' later) (hkey : key ≠ .token token)
    (hchange : ∀ {k}, scope.find? key = some k → slot = .registered k →
      (replacedToken? identifier token).map Key.token ≠ some key →
        ∀ v, P v → P { v with destination := some token }) : later.Has key P := by
  refine ⟨h.indexed.rebind hheld hrebinds, fun {k v} hfind hv => ?_⟩
  rw [hrebinds.find?, if_neg hkey] at hfind
  split at hfind
  · cases hfind
  · next hreplaced =>
      rcases hrebinds.at?_cases (h.indexed.lt_size hfind) with hat | ⟨hslot, hat⟩
      · exact h.holds hfind (hat ▸ hv)
      · rw [hat] at hv
        obtain ⟨v', hv', rfl⟩ := Option.map_eq_some_iff.mp hv
        exact hchange hfind hslot hreplaced v' (h.holds hfind hv')

/-- The token of a bind leads to a variable with that token as its destination. -/
theorem rebind_self (h : scope.Indexed) (hheld : slot.Held scope)
    (hrebinds : scope.Rebinds slot identifier token slot' later)
    (hnew : ∀ v : Variable, P { v with destination := some token }) :
    later.Has (.token token) P := by
  refine ⟨h.rebind hheld hrebinds, fun {k v} hfind hv => ?_⟩
  rw [hrebinds.find?, if_pos rfl] at hfind
  cases hfind
  rw [hrebinds.at?, if_pos rfl] at hv
  obtain ⟨v', -, rfl⟩ := Option.map_eq_some_iff.mp hv
  exact hnew v'

end Has

end Scope

end GraphQuery
