import GraphQuery.Proofs.Scope.Changes

/-! # Histories of a scope

Whatever operations a scope has been through, its keys lead to variables that it has, and no
variable is that of two texts, of two fields, or of a text and a field. -/

namespace GraphQuery

/-- The slot is one that the scope may have handed out: its variable is there. -/
def Slot.Held (scope : Scope) : Slot → Prop
  | .registered k => k < scope.size
  | .detached _ => True

instance (scope : Scope) : (slot : Slot) → Decidable (slot.Held scope)
  | .registered k => inferInstanceAs (Decidable (k < scope.size))
  | .detached _ => .isTrue trivial

def Key.isToken : Key → Bool
  | .token _ => true
  | _ => false

namespace Scope

/-! ## Operations -/

inductive Operation
  | resolve (identifier : Identifier)
  | qualify (slot : Slot) (identifier : Identifier) (qualifier : String) (name : Option String)
  | rebind (slot : Slot) (identifier : Identifier) (token : Token)

namespace Operation

/-- The slot that an operation changes. -/
def slot? : Operation → Option Slot
  | .resolve _ => none
  | .qualify slot _ _ _ | .rebind slot _ _ => some slot

/-- The slot of the operation, if there is one, is one the scope has handed out. -/
def Held (scope : Scope) (operation : Operation) : Prop :=
  ∀ slot ∈ operation.slot?, slot.Held scope

instance (scope : Scope) (operation : Operation) : Decidable (operation.Held scope) :=
  inferInstanceAs (Decidable (∀ slot ∈ operation.slot?, slot.Held scope))

end Operation

/-- The scope after an operation, which leaves it alone if it fails. -/
def after (scope : Scope) : Operation → Scope
  | .resolve identifier =>
      match scope.resolve identifier with
      | .ok (_, after) => after
      | .error _ => scope
  | .qualify slot identifier qualifier name =>
      match scope.qualify slot identifier qualifier name with
      | .ok (_, _, after) => after
      | .error _ => scope
  | .rebind slot identifier token =>
      match scope.rebind slot identifier token with
      | .ok (_, after) => after
      | .error _ => scope

def afterAll (scope : Scope) (operations : List Operation) : Scope :=
  operations.foldl after scope

/-- Each operation has the property in the scope it finds. -/
def Along (P : Scope → Operation → Prop) : Scope → List Operation → Prop
  | _, [] => True
  | scope, operation :: rest => P scope operation ∧ Along P (scope.after operation) rest

instance (P : Scope → Operation → Prop) [∀ scope operation, Decidable (P scope operation)] :
    (scope : Scope) → (operations : List Operation) → Decidable (Along P scope operations)
  | _, [] => .isTrue trivial
  | scope, operation :: rest =>
      have := instDecidableAlong P (scope.after operation) rest
      inferInstanceAs (Decidable (_ ∧ _))

theorem Along.and {P Q : Scope → Operation → Prop} {scope : Scope} {operations : List Operation}
    (hP : Along P scope operations) (hQ : Along Q scope operations) :
    Along (fun scope operation => P scope operation ∧ Q scope operation) scope operations := by
  induction operations generalizing scope with
  | nil => trivial
  | cons operation rest ih => exact ⟨⟨hP.1, hQ.1⟩, ih hP.2 hQ.2⟩

theorem afterAll_keeps {Inv : Scope → Prop} {P : Scope → Operation → Prop}
    (hstep : ∀ scope operation, Inv scope → P scope operation → Inv (scope.after operation))
    {scope : Scope} (hscope : Inv scope) {operations : List Operation}
    (halong : Along P scope operations) : Inv (scope.afterAll operations) := by
  induction operations generalizing scope with
  | nil => exact hscope
  | cons operation rest ih => exact ih (hstep scope operation hscope halong.1) halong.2

/-- What each of the operations keeps, whatever scope it finds. -/
theorem afterAll_invariant {motive : Scope → Prop} {scope : Scope} (hscope : motive scope)
    {operations : List Operation}
    (hstep : ∀ scope, motive scope → ∀ operation ∈ operations, motive (scope.after operation)) :
    motive (scope.afterAll operations) :=
  List.foldlRecOn operations after hscope hstep

/-- An operation that fails leaves the scope as it was, and one that succeeds what it results in. -/
theorem after_ok_cases {motive : Operation → Scope → Prop} {scope : Scope}
    (failed : ∀ operation, motive operation scope)
    (resolve : ∀ {identifier resolution after},
      scope.resolve identifier = .ok (resolution, after) → motive (.resolve identifier) after)
    (qualify : ∀ {slot identifier qualifier name qualified slot' after},
      scope.qualify slot identifier qualifier name = .ok (qualified, slot', after) →
        motive (.qualify slot identifier qualifier name) after)
    (rebind : ∀ {slot identifier token slot' after},
      scope.rebind slot identifier token = .ok (slot', after) →
        motive (.rebind slot identifier token) after)
    (operation : Operation) : motive operation (scope.after operation) := by
  cases operation with
  | resolve identifier =>
      cases hresult : scope.resolve identifier with
      | error fault => simpa [Scope.after, hresult] using failed (.resolve identifier)
      | ok result => simpa [Scope.after, hresult] using resolve hresult
  | qualify slot identifier qualifier name =>
      cases hresult : scope.qualify slot identifier qualifier name with
      | error fault =>
          simpa [Scope.after, hresult] using failed (.qualify slot identifier qualifier name)
      | ok result => simpa [Scope.after, hresult] using qualify hresult
  | rebind slot identifier token =>
      cases hresult : scope.rebind slot identifier token with
      | error fault => simpa [Scope.after, hresult] using failed (.rebind slot identifier token)
      | ok result => simpa [Scope.after, hresult] using rebind hresult

/-- What an operation leaves is what a successful one leaves, or the scope as it was. -/
theorem after_cases {motive : Operation → Scope → Prop} {scope : Scope}
    (failed : ∀ operation, motive operation scope)
    (resolve : ∀ {identifier resolution after}, scope.Resolves identifier resolution after →
      motive (.resolve identifier) after)
    (qualify : ∀ {slot identifier qualifier name slot' after}, scope.Qualifies slot slot' after →
      motive (.qualify slot identifier qualifier name) after)
    (rebind : ∀ {slot identifier token slot' after},
      scope.Rebinds slot identifier token slot' after →
        motive (.rebind slot identifier token) after)
    (operation : Operation) : motive operation (scope.after operation) :=
  after_ok_cases failed (fun hresolve => resolve (resolves_of_ok hresolve))
    (fun hqualify => qualify (qualifies_of_ok hqualify))
    (fun hrebind => rebind (rebinds_of_ok hrebind)) operation

/-! ## What the keys lead to -/

structure Indexed (scope : Scope) : Prop where
  lt_size : ∀ {key k}, scope.find? key = some k → k < scope.size
  pinned_lt : ∀ {k}, k ∈ scope.pinned → k < scope.size
  distinct : ∀ {key key' k}, key.isToken = false → key'.isToken = false →
    scope.find? key = some k → scope.find? key' = some k → key = key'

namespace Indexed

theorem empty : Indexed {} where
  lt_size h := by simp at h
  pinned_lt h := by cases h
  distinct _ _ h := by simp at h

variable {scope later : Scope}

/-- Changes of the variables alone make no difference. -/
theorem of_same (h : scope.Indexed) (hfind : ∀ key, later.find? key = scope.find? key)
    (hsize : later.size = scope.size) (hpinned : ∀ k ∈ later.pinned, k < later.size) :
    later.Indexed where
  lt_size hkey := by
    rw [hsize]
    exact h.lt_size (hfind _ ▸ hkey)
  pinned_lt hk := hpinned _ hk
  distinct hkey hkey' hk hk' := h.distinct hkey hkey' (hfind _ ▸ hk) (hfind _ ▸ hk')

theorem modifyAt (h : scope.Indexed) (k : Nat) (change : Variable → Variable) :
    (scope.modifyAt k change).Indexed :=
  h.of_same (find?_modifyAt k change) (size_modifyAt k change) fun i hi => by
    rw [size_modifyAt]
    exact h.pinned_lt hi

theorem introduce (h : scope.Indexed) (key : Key) (v : Variable) :
    (scope.introduce key v).Indexed where
  lt_size {other k} hother := by
    rw [find?_introduce] at hother
    rw [size_introduce]
    split at hother
    · cases hother
      exact Nat.lt_succ_self _
    · exact Nat.lt_succ_of_lt (h.lt_size hother)
  pinned_lt hk := by
    rw [pinned_introduce] at hk
    rw [size_introduce]
    exact Nat.lt_succ_of_lt (h.pinned_lt hk)
  distinct {first second k} hfirst hsecond hk hk' := by
    rw [find?_introduce] at hk hk'
    split at hk <;> split at hk'
    · next hleft hright => rw [hleft, hright]
    · next hleft hright =>
        cases hk
        exact absurd (h.lt_size hk') (Nat.lt_irrefl _)
    · next hleft hright =>
        cases hk'
        exact absurd (h.lt_size hk) (Nat.lt_irrefl _)
    · exact h.distinct hfirst hsecond hk hk'

theorem resolve (h : scope.Indexed) {identifier : Identifier} {resolution : Resolution}
    (hresolves : scope.Resolves identifier resolution later) : later.Indexed := by
  cases hresolves with
  | apart hkey => exact h
  | found hkey hfind => exact h.modifyAt _ _
  | introduced hkey hfind => exact h.introduce _ _

theorem qualify (h : scope.Indexed) {slot slot' : Slot} (hheld : slot.Held scope)
    (hqualifies : scope.Qualifies slot slot' later) : later.Indexed := by
  cases hqualifies with
  | apart held held' => exact h
  | renamed k text => exact h.modifyAt k _
  | expressed k text name =>
      refine (h.modifyAt k _).of_same (find?_pin _) (size_pin _) fun i hi => ?_
      rw [size_pin, size_modifyAt]
      rcases List.mem_insert_iff.mp hi with rfl | hi
      · exact hheld
      · exact h.pinned_lt hi

theorem size_le_register (slot : Slot) : scope.size ≤ (scope.register slot).2.size := by
  cases slot with
  | registered k => exact Nat.le_refl _
  | detached held => exact (size_add held).symm ▸ Nat.le_succ _

theorem register_lt_size {slot : Slot} (hheld : slot.Held scope) :
    (scope.register slot).1 < (scope.register slot).2.size := by
  cases slot with
  | registered k => exact hheld
  | detached held => exact (size_add held).symm ▸ Nat.lt_succ_self _

theorem rebind (h : scope.Indexed) {slot slot' : Slot} {identifier : Identifier} {token : Token}
    (hheld : slot.Held scope) (hrebinds : scope.Rebinds slot identifier token slot' later) :
    later.Indexed := by
  have hkept : ∀ {key k}, key ≠ .token token → later.find? key = some k →
      scope.find? key = some k := by
    intro key k hkey hk
    rw [hrebinds.find?, if_neg hkey] at hk
    split at hk
    · cases hk
    · exact hk
  refine ⟨fun {key k} hk => ?_, fun {k} hk => ?_, fun {key key' k} hkey hkey' hk hk' => ?_⟩
  · rw [hrebinds.size]
    by_cases htoken : key = .token token
    · rw [hrebinds.find?, if_pos htoken] at hk
      cases hk
      exact register_lt_size hheld
    · exact Nat.lt_of_lt_of_le (h.lt_size (hkept htoken hk)) (size_le_register slot)
  · rw [hrebinds.pinned] at hk
    rw [hrebinds.size]
    exact Nat.lt_of_lt_of_le (h.pinned_lt hk) (size_le_register slot)
  · have hne : key ≠ .token token := by
      rintro rfl
      cases hkey
    have hne' : key' ≠ .token token := by
      rintro rfl
      cases hkey'
    exact h.distinct hkey hkey' (hkept hne hk) (hkept hne' hk')

theorem after (h : scope.Indexed) {operation : Operation} (hheld : operation.Held scope) :
    (scope.after operation).Indexed := by
  revert hheld
  refine after_cases (motive := fun operation later => operation.Held scope → later.Indexed)
    ?_ ?_ ?_ ?_ operation
  · exact fun _ _ => h
  · exact fun hresolves _ => h.resolve hresolves
  · exact fun hqualifies hheld => h.qualify (hheld _ rfl) hqualifies
  · exact fun hrebinds hheld => h.rebind (hheld _ rfl) hrebinds

end Indexed

end Scope

end GraphQuery
