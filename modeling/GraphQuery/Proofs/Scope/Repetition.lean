import GraphQuery.Proofs.Scope.Identity

/-! # Repeated resolution

An identifier that is resolved twice in a row stands for the same variable, and the second time
nothing changes. The exception is a field whose owner has come to stand for the field itself. Its
text is taken from its own, so it grows with every mention. -/

namespace GraphQuery

namespace Scope

/-- The identifier is a field whose owner leads to the field's own variable, which has a text but
none that was given to it. -/
def FollowsItself (scope : Scope) : Identifier → Prop
  | .field owner path => ∃ k ∈ scope.find? (.field owner path.field),
      scope.find? (.token owner) = some k ∧ k ∉ scope.pinned ∧
        ∃ v ∈ scope.at? k, v.name = none ∧ v.reference?.isSome
  | _ => False

instance (scope : Scope) : (identifier : Identifier) → Decidable (scope.FollowsItself identifier)
  | .field owner path => inferInstanceAs (Decidable
      (∃ k ∈ scope.find? (.field owner path.field), scope.find? (.token owner) = some k ∧
        k ∉ scope.pinned ∧ ∃ v ∈ scope.at? k, v.name = none ∧ v.reference?.isSome))
  | .anonymous | .name _ | .raw _ | .token _ _ | .typeValue _ | .parameter _ _ => .isFalse id

variable {scope : Scope} {identifier : Identifier} {owner : Token} {path : FieldPath} {k : Nat}
  {v : Variable}

/-! ## Refreshing twice -/

/-- A variable that refreshing makes nothing else of is not changed by another resolution. -/
theorem refreshed_refreshed (h : ∀ v ∈ scope.at? k,
    (scope.refreshed identifier k).refresh identifier k (scope.refresh identifier k v) =
      scope.refresh identifier k v) :
    (scope.refreshed identifier k).refreshed identifier k = scope.refreshed identifier k := by
  refine modifyAt_eq_self fun w hw => ?_
  rw [Option.mem_def, refreshed, at?_modifyAt, if_pos rfl] at hw
  obtain ⟨v, hv, rfl⟩ := Option.map_eq_some_iff.mp hw
  exact h v hv

theorem ownerText?_of_find? (hfind : scope.find? (.token owner) = some k)
    (hv : scope.at? k = some v) : scope.ownerText? owner = v.reference? := by
  simp [ownerText?, hfind, hv]

/-- A field whose owner is another variable does not change what the owner is called. -/
theorem refresh_refreshed_of_ne (howner : scope.find? (.token owner) ≠ some k) (v : Variable) :
    (scope.refreshed (.field owner path) k).refresh (.field owner path) k
        (scope.refresh (.field owner path) k v) = scope.refresh (.field owner path) k v := by
  have hrefresh : (scope.refreshed (.field owner path) k).refresh (.field owner path) k =
      scope.refresh (.field owner path) k := by
    refine refresh_congr Iff.rfl fun t ht => ?_
    cases ht
    refine ownerText?_congr (find?_modifyAt _ _ _) fun i hi => ?_
    rw [refreshed, at?_modifyAt, if_neg]
    rintro rfl
    exact howner hi
  rw [hrefresh, refresh_refresh]

/-- A field that is its own owner takes its text from what it was called before. -/
theorem refreshed_of_self (path : FieldPath) (howner : scope.find? (.token owner) = some k)
    (hpinned : k ∉ scope.pinned) (hv : scope.at? k = some v) (hname : v.name = none) :
    (scope.refreshed (.field owner path) k).at? k =
      some { v with expression := v.reference?.map fun text => text ++ "." ++ path.property } := by
  rw [refreshed, at?_modifyAt, if_pos rfl, hv]
  simp [refresh, hpinned, hname, propertyText?_eq, ownerText?_of_find? howner hv]

/-- A field that has been given a text keeps it, and one without a text finds none in itself. -/
theorem refresh_refreshed_of_self (howner : scope.find? (.token owner) = some k)
    (hv : scope.at? k = some v)
    (htext : k ∈ scope.pinned ∨ v.name.isSome ∨ v.reference? = none) :
    (scope.refreshed (.field owner path) k).refresh (.field owner path) k
        (scope.refresh (.field owner path) k v) = scope.refresh (.field owner path) k v := by
  by_cases hheld : k ∈ scope.pinned ∨ v.name.isSome
  · have hsame : ∀ scope : Scope, (k ∈ scope.pinned ∨ v.name.isSome) →
        scope.refresh (.field owner path) k v = v := fun scope h => if_pos h
    rw [hsame scope hheld]
    exact hsame (scope.refreshed (.field owner path) k) hheld
  · obtain ⟨hpinned, hname⟩ := not_or.mp hheld
    have hname : v.name = none := Option.not_isSome_iff_eq_none.mp hname
    have hnone : v.reference? = none :=
      (htext.resolve_left hpinned).resolve_left (by simp [hname])
    have hlater := refreshed_of_self path howner hpinned hv hname
    rw [hnone, Option.map_none] at hlater
    have hself : (scope.refreshed (.field owner path) k).find? (.token owner) = some k :=
      (find?_modifyAt ..).trans howner
    have htext : (scope.refreshed (.field owner path) k).ownerText? owner = none := by
      rw [ownerText?_of_find? hself hlater]
      simp [Variable.reference?, hname]
    simp [refresh, hheld, propertyText?_eq, ownerText?_of_find? howner hv, hnone, htext]

/-! ## Resolving twice -/

theorem refreshed_refreshed_of_field (hfield : scope.find? (.field owner path.field) = some k)
    (hfollows : ¬ scope.FollowsItself (.field owner path)) :
    (scope.refreshed (.field owner path) k).refreshed (.field owner path) k =
      scope.refreshed (.field owner path) k := by
  refine refreshed_refreshed fun v hv => ?_
  by_cases howner : scope.find? (.token owner) = some k
  · refine refresh_refreshed_of_self howner hv ?_
    by_contra htext
    simp only [not_or, Option.not_isSome_iff_eq_none] at htext
    exact hfollows ⟨k, hfield, howner, htext.1, v, hv, htext.2.1,
      Option.isSome_iff_ne_none.mpr htext.2.2⟩
  · exact refresh_refreshed_of_ne howner v

/-- A field that follows itself goes on doing so, under a longer text. -/
theorem FollowsItself.refreshed (h : scope.FollowsItself (.field owner path))
    (hfield : scope.find? (.field owner path.field) = some k) :
    (scope.refreshed (.field owner path) k).FollowsItself (.field owner path) ∧
      ∃ text, (scope.get (.registered k)).reference? = some text ∧
        ((scope.refreshed (.field owner path) k).get (.registered k)).reference? =
          some (text ++ "." ++ path.property) := by
  obtain ⟨i, hi, howner, hpinned, v, hv, hname, htext⟩ := h
  cases hfield.symm.trans hi
  have hv : scope.at? k = some v := hv
  obtain ⟨text, htext⟩ := Option.isSome_iff_exists.mp htext
  have hlater := refreshed_of_self path howner hpinned hv hname
  rw [htext, Option.map_some] at hlater
  have hreference : Variable.reference? { v with
        expression := some (text ++ "." ++ path.property) } =
      some (text ++ "." ++ path.property) := by
    simp [Variable.reference?, hname]
  refine ⟨⟨k, (find?_modifyAt ..).trans hfield, (find?_modifyAt ..).trans howner, hpinned, _,
    hlater, hname, Option.isSome_iff_exists.mpr ⟨_, hreference⟩⟩, text, ?_, ?_⟩
  · rw [get, hv]
    exact htext
  · rw [get, hlater]
    exact hreference

/-- What a second resolution in a row finds and leaves. -/
theorem Resolves.again (hindexed : scope.Indexed) {resolution : Resolution} {once : Scope}
    (h : scope.Resolves identifier resolution once) :
    ∃ twice, once.resolved identifier = (⟨resolution.slot, identifier.key?.isNone⟩, twice) ∧
      (¬ scope.FollowsItself identifier → twice = once) ∧
      ∀ owner path, identifier = .field owner path → scope.FollowsItself identifier →
        ∃ text, (once.get resolution.slot).reference? = some text ∧
          (twice.get resolution.slot).reference? = some (text ++ "." ++ path.property) := by
  cases h with
  | apart hkey =>
      refine ⟨scope, ?_, fun _ => rfl, ?_⟩
      · simp only [resolved, hkey, Option.isNone_none]
      · rintro owner path rfl
        cases hkey
  | @found key k hkey hfind =>
      have hagain : (scope.refreshed identifier k).find? key = some k :=
        (find?_modifyAt ..).trans hfind
      refine ⟨(scope.refreshed identifier k).refreshed identifier k, ?_, fun hfollows => ?_, ?_⟩
      · simp only [resolved, hkey, hagain, Option.isNone_some]
      · cases identifier with
        | field owner path =>
            cases hkey
            exact refreshed_refreshed_of_field hfind hfollows
        | _ => exact modifyAt_same k
      · rintro owner path rfl hfollows
        cases hkey
        obtain ⟨hlater, -⟩ := hfollows.refreshed hfind
        exact (hlater.refreshed hagain).2
  | @introduced key hkey hfind =>
      have hagain : (scope.introduce key (scope.beginning identifier)).find? key =
          some scope.size := (find?_introduce ..).trans (if_pos rfl)
      refine ⟨(scope.introduce key (scope.beginning identifier)).refreshed identifier scope.size,
        ?_, fun _ => modifyAt_eq_self fun v hv => ?_, ?_⟩
      · simp only [resolved, hkey, hagain, Option.isNone_some]
      · rw [Option.mem_def, at?_introduce, if_pos rfl] at hv
        cases hv
        exact Settled.refresh_beginning hindexed hkey hfind
      · rintro owner path rfl ⟨k, hk, -⟩
        cases hkey
        cases hfind.symm.trans hk

/-- An identifier that was just resolved is found again, in the same slot and without a new
variable. Nothing changes by that, except that a field which follows itself is called by its
property once more. -/
theorem resolve_twice {history : List Operation}
    (hheld : Along (fun scope operation => operation.Held scope) {} history)
    {identifier : Identifier} {first : Resolution} {once : Scope}
    (hfirst : (afterAll {} history).resolve identifier = .ok (first, once)) :
    ∃ twice, once.resolve identifier = .ok (⟨first.slot, identifier.key?.isNone⟩, twice) ∧
      (¬ (afterAll {} history).FollowsItself identifier → twice = once) ∧
      ∀ owner path, identifier = .field owner path →
        (afterAll {} history).FollowsItself identifier →
          ∃ text, (once.get first.slot).reference? = some text ∧
            (twice.get first.slot).reference? = some (text ++ "." ++ path.property) := by
  have hindexed : (afterAll {} history).Indexed :=
    afterAll_keeps (fun _ _ hscope hoperation => hscope.after hoperation) .empty hheld
  obtain ⟨hlive, -⟩ := resolve_eq_ok_iff.mp hfirst
  have hresolves := resolves_of_ok hfirst
  obtain ⟨twice, hagain, hchange⟩ := hresolves.again hindexed
  exact ⟨twice, resolve_eq_ok_iff.mpr ⟨hresolves.retired ▸ hlive, hagain⟩, hchange⟩

/-- Two fields, each of which is the owner of the other. -/
def mutualHistory : List Operation :=
  [.resolve (.token ⟨1⟩ none), .qualify (.registered 0) (.token ⟨1⟩ none) "n" none,
    .resolve (.field ⟨1⟩ ⟨"birth", "born"⟩),
    .rebind (.registered 1) (.field ⟨1⟩ ⟨"birth", "born"⟩) ⟨2⟩,
    .resolve (.field ⟨2⟩ ⟨"year", "year"⟩),
    .rebind (.registered 2) (.field ⟨2⟩ ⟨"year", "year"⟩) ⟨1⟩]

theorem resolve_twice_mutualHistory :
    ∃ once, (afterAll {} mutualHistory).resolve (.field ⟨1⟩ ⟨"birth", "born"⟩) =
        .ok (⟨.registered 1, false⟩, once) ∧
      (once.get (.registered 1)).reference? = some "n.born.year.born" ∧
      once.resolve (.field ⟨1⟩ ⟨"birth", "born"⟩) = .ok (⟨.registered 1, false⟩, once) := by
  obtain ⟨twice, hagain, hsame, -⟩ := @resolve_twice mutualHistory (by decide)
    (.field ⟨1⟩ ⟨"birth", "born"⟩) ⟨.registered 1, false⟩ _ rfl
  have htwice := hsame (by decide)
  subst htwice
  exact ⟨_, rfl, by decide, hagain⟩

/-- A field that is bound to the token of its own owner. -/
def ownFieldHistory : List Operation :=
  [.resolve (.token ⟨1⟩ none), .qualify (.registered 0) (.token ⟨1⟩ none) "n" none,
    .resolve (.field ⟨1⟩ ⟨"age", "age"⟩),
    .rebind (.registered 1) (.field ⟨1⟩ ⟨"age", "age"⟩) ⟨1⟩]

/-- Every mention of the field makes its text longer. -/
theorem resolve_twice_differs_ownFieldHistory :
    Along (fun scope operation => operation.Held scope) {} ownFieldHistory ∧
    ∃ once twice,
      (afterAll {} ownFieldHistory).resolve (.field ⟨1⟩ ⟨"age", "age"⟩) =
        .ok (⟨.registered 1, false⟩, once) ∧
      once.resolve (.field ⟨1⟩ ⟨"age", "age"⟩) = .ok (⟨.registered 1, false⟩, twice) ∧
      (once.get (.registered 1)).reference? = some "n.age.age" ∧
      (twice.get (.registered 1)).reference? = some "n.age.age.age" :=
  ⟨by decide, _, _, rfl, rfl, by decide, by decide⟩

end Scope

end GraphQuery
