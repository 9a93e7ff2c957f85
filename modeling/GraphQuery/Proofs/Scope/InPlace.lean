import GraphQuery.Proofs.Scope.Changes

/-! # Operations in place

The operations of a scope as statements that are carried out in turn, each of which changes one
part of the scope or the slot that is held outside it. A statement that fails leaves what those
before it have changed. In each of the operations that is nothing, as the check comes before the
first change. -/

namespace GraphQuery

/-- A scope, and a slot that is worked on. -/
structure Workplace where
  scope : Scope
  slot : Slot

abbrev InPlace := EStateM Fault Workplace

/-- What an operation results in is what is left there. If it is refused, all is as before. -/
def Workplace.returning {α : Type} (place : Workplace) :
    Except Fault (α × Slot × Scope) → EStateM.Result Fault Workplace α
  | .ok (result, slot, scope) => .ok result ⟨scope, slot⟩
  | .error fault => .error fault place

theorem map_eq_error_iff {α β : Type} {f : α → β} {result : Except Fault α} {fault : Fault} :
    result.map f = .error fault ↔ result = .error fault := by
  cases result <;> simp [Except.map]

theorem Workplace.returning_eq_error_iff {α : Type} {place after : Workplace}
    {result : Except Fault (α × Slot × Scope)} {fault : Fault} :
    place.returning result = .error fault after ↔ after = place ∧ result = .error fault := by
  cases result <;> simp [returning, and_comm, eq_comm]

namespace Scope

variable (scope : Scope) (first second : Variable → Variable)

theorem modifyAt_modifyAt (id : Nat) :
    (scope.modifyAt id first).modifyAt id second =
      scope.modifyAt id fun v => second (first v) := by
  have hstored : (scope.stored.modify id first).modify id second =
      scope.stored.modify id fun v => second (first v) := by
    apply Array.ext_getElem?
    intro i
    simp only [Array.getElem?_modify]
    split <;> simp [Function.comp_def]
  exact congrArg (fun stored => { scope with stored }) hstored

/-- Two changes of the variable in a slot are one. -/
theorem modify_modify (slot : Slot) :
    (scope.modify slot first).2.modify (scope.modify slot first).1 second =
      scope.modify slot fun v => second (first v) := by
  cases slot with
  | registered id => exact congrArg (Slot.registered id, ·) (modifyAt_modifyAt ..)
  | detached held => rfl

/-! ## Refusals -/

variable {scope : Scope} {slot : Slot} {identifier : Identifier} {fault : Fault}

theorem resolve_eq_error_iff :
    scope.resolve identifier = .error fault ↔
      ∃ t ∈ identifier.token?, t ∈ scope.retired ∧ fault = .unresolvedIdentifier t.display := by
  rw [resolve_eq]
  cases identifier.token? with
  | none => simp
  | some t => by_cases h : t ∈ scope.retired <;> simp [h, eq_comm]

theorem qualify_eq_error_iff {qualifier : String} {name : Option String} :
    scope.qualify slot identifier qualifier name = .error fault ↔
      (∃ text ∈ (scope.get slot).expression, text ≠ "") ∧ name.isSome ∧
        fault = .duplicateQualification identifier.display qualifier := by
  have hexpression : (scope.get slot).hasExpression ↔
      ∃ text ∈ (scope.get slot).expression, text ≠ "" := by
    simp [Variable.hasExpression, Option.any_eq_true]
  rw [← hexpression]
  by_cases h : (scope.get slot).hasExpression <;> cases name <;> simp [qualify, h, eq_comm]

theorem rebind_eq_error_iff {token : Token} :
    scope.rebind slot identifier token = .error fault ↔
      token ∈ scope.retired ∧ fault = .unresolvedIdentifier token.display := by
  rw [rebind_eq]
  by_cases h : token ∈ scope.retired <;> simp [h, eq_comm]

end Scope

namespace InPlace

/-! ## Statements -/

def modifyScope (change : Scope → Scope) : InPlace Unit :=
  modify fun place => { place with scope := change place.scope }

/-- Changes the variable in the slot, wherever it is kept. -/
def modifySlot (change : Variable → Variable) : InPlace Unit :=
  modify fun place =>
    match place.slot with
    | .registered id => { place with scope := place.scope.modifyAt id change }
    | .detached held => { place with slot := .detached (change held) }

def checkLive (token : Token) : InPlace Unit := do
  if token ∈ (← get).scope.retired then
    throw (.unresolvedIdentifier token.display)

/-- Adds a variable, which becomes the last. -/
def push (v : Variable) : InPlace Nat := do
  modifyScope fun scope => scope.add v
  return (← get).scope.size - 1

/-! ## Operations -/

def resolveText (text : String) : InPlace Resolution := do
  match (← get).scope.byText.get? text with
  | some id => return ⟨.registered id, false⟩
  | none =>
      let id ← push { expression := some text }
      modifyScope fun scope => { scope with byText := scope.byText.insert text id }
      return ⟨.registered id, true⟩

def resolveToken (token : Token) (label : Option String) : InPlace Resolution := do
  checkLive token
  match (← get).scope.byToken.get? token with
  | some id => return ⟨.registered id, false⟩
  | none =>
      let id ← push { label, destination := some token }
      modifyScope fun scope => { scope with byToken := scope.byToken.insert token id }
      return ⟨.registered id, true⟩

def resolveField (owner : Token) (path : FieldPath) : InPlace Resolution := do
  checkLive owner
  let text := (← get).scope.propertyText? owner path.property
  match (← get).scope.byField.get? (owner, path.field) with
  | some id =>
      let pinned := (← get).scope.pinned
      modifyScope fun scope => scope.modifyAt id fun v =>
        if v.name.isNone ∧ id ∉ pinned then { v with expression := text } else v
      return ⟨.registered id, false⟩
  | none =>
      let id ← push { expression := text }
      modifyScope fun scope => { scope with byField := scope.byField.insert (owner, path.field) id }
      return ⟨.registered id, true⟩

def resolve : Identifier → InPlace Resolution
  | .anonymous => return ⟨.detached {}, true⟩
  | .name text | .raw text => resolveText text
  | .token token descriptor => resolveToken token (descriptor.map Descriptor.label)
  | .field owner path => resolveField owner path
  | .typeValue descriptor => return ⟨.detached { label := some descriptor.label }, true⟩
  | .parameter name _ => return ⟨.detached { expression := some ("$" ++ name) }, true⟩

def qualify (identifier : Identifier) (qualifier : String) (name : Option String) :
    InPlace Qualified := do
  let place ← get
  let v := place.scope.get place.slot
  if v.hasExpression then
    if name.isSome then
      throw (.duplicateQualification identifier.display qualifier)
    modifySlot fun v => { v with name := some qualifier }
    return .renamed (v.reference?.getD "")
  else
    modifySlot fun v => { v with expression := some qualifier }
    if name.isSome then
      modifySlot fun v => { v with name }
    modifyScope fun scope => scope.pin place.slot
    return .expression

/-- The number of the variable in the slot, which is moved to the scope if it is kept in the slot
itself. -/
def settle : InPlace Nat := do
  match (← get).slot with
  | .registered id => return id
  | .detached held =>
      -- The slot is empty by the time the scope has the variable.
      modifySlot fun _ => {}
      let id ← push held
      modify fun place => { place with slot := .registered id }
      return id

def retire (old : Token) : InPlace Unit := do
  modifyScope fun scope => { scope with byToken := scope.byToken.erase old }
  modifyScope fun scope => { scope with retired := scope.retired.insert old }

def rebind (identifier : Identifier) (token : Token) : InPlace Unit := do
  checkLive token
  let id ← settle
  if let .token old _ := identifier then
    if old ≠ token then
      retire old
  modifyScope fun scope => { scope with byToken := scope.byToken.insert token id }
  modifyScope fun scope => scope.modifyAt id fun v => { v with destination := some token }

/-! ## Single statements -/

section

variable {β : Type} (scope : Scope) (slot : Slot)

theorem get_bind (next : Workplace → InPlace β) :
    (get >>= next) ⟨scope, slot⟩ = next ⟨scope, slot⟩ ⟨scope, slot⟩ := rfl

theorem modifyScope_bind (change : Scope → Scope) (next : Unit → InPlace β) :
    (modifyScope change >>= next) ⟨scope, slot⟩ = next () ⟨change scope, slot⟩ := rfl

theorem modifySlot_bind (change : Variable → Variable) (next : Unit → InPlace β) :
    (modifySlot change >>= next) ⟨scope, slot⟩ =
      next () ⟨(scope.modify slot change).2, (scope.modify slot change).1⟩ := by
  cases slot <;> rfl

theorem checkLive_bind (token : Token) (next : Unit → InPlace β) :
    (checkLive token >>= next) ⟨scope, slot⟩ =
      if token ∈ scope.retired then .error (.unresolvedIdentifier token.display) ⟨scope, slot⟩
      else next () ⟨scope, slot⟩ := by
  by_cases h : token ∈ scope.retired
  · simp only [checkLive, bind_assoc, get_bind, if_pos h]
    rfl
  · simp only [checkLive, bind_assoc, get_bind, if_neg h]
    rfl

theorem push_bind (v : Variable) (next : Nat → InPlace β) :
    (push v >>= next) ⟨scope, slot⟩ = next scope.size ⟨scope.add v, slot⟩ := by
  simp only [push, bind_assoc, modifyScope_bind, get_bind, pure_bind, Scope.size_add,
    Nat.add_sub_cancel]

/-- The slot's variable is at most moved, and is then the last of the scope. -/
theorem settle_bind (next : Nat → InPlace β) :
    (settle >>= next) ⟨scope, slot⟩ =
      next (scope.register slot).1
        ⟨(scope.register slot).2, .registered (scope.register slot).1⟩ := by
  cases slot with
  | registered id => rfl
  | detached held =>
      simp only [settle, bind_assoc, get_bind, modifySlot_bind, push_bind]
      rfl

end

/-! ## What the operations come to -/

section

variable (scope : Scope) (slot : Slot)

theorem resolveText_eq (text : String) :
    resolveText text ⟨scope, slot⟩ =
      .ok (scope.resolveText text).1 ⟨(scope.resolveText text).2, slot⟩ := by
  simp only [resolveText, Scope.resolveText, get_bind]
  cases scope.byText.get? text with
  | none =>
      simp only [push_bind, modifyScope_bind]
      rfl
  | some id => rfl

theorem resolveToken_eq (token : Token) (label : Option String) :
    resolveToken token label ⟨scope, slot⟩ =
      if token ∈ scope.retired then .error (.unresolvedIdentifier token.display) ⟨scope, slot⟩
      else .ok (scope.resolveToken token label).1 ⟨(scope.resolveToken token label).2, slot⟩ := by
  simp only [resolveToken, Scope.resolveToken, checkLive_bind, get_bind]
  congr 1
  cases scope.byToken.get? token with
  | none =>
      simp only [push_bind, modifyScope_bind]
      rfl
  | some id => rfl

theorem resolveField_eq (owner : Token) (path : FieldPath) :
    resolveField owner path ⟨scope, slot⟩ =
      if owner ∈ scope.retired then .error (.unresolvedIdentifier owner.display) ⟨scope, slot⟩
      else .ok (scope.resolveField owner path).1 ⟨(scope.resolveField owner path).2, slot⟩ := by
  simp only [resolveField, Scope.resolveField, checkLive_bind, get_bind]
  congr 1
  cases scope.byField.get? (owner, path.field) with
  | none =>
      simp only [push_bind, modifyScope_bind]
      rfl
  | some id =>
      simp only [get_bind, modifyScope_bind]
      by_cases h : id ∈ scope.pinned
      · simp only [h, not_true_eq_false, and_false, if_false, if_true, Scope.modifyAt_same]
        rfl
      · simp only [h, not_false_eq_true, and_true, if_false]
        rfl

theorem resolve_eq (identifier : Identifier) :
    resolve identifier ⟨scope, slot⟩ =
      Workplace.returning ⟨scope, slot⟩
        ((scope.resolve identifier).map fun found => (found.1, slot, found.2)) := by
  cases identifier with
  | token token descriptor =>
      simp only [resolve, resolveToken_eq, Scope.resolve, Scope.checkLive_bind]
      split <;> rfl
  | field owner path =>
      simp only [resolve, resolveField_eq, Scope.resolve, Scope.checkLive_bind]
      split <;> rfl
  | name text | raw text => exact resolveText_eq scope slot text
  | _ => rfl

theorem qualify_eq (identifier : Identifier) (qualifier : String) (name : Option String) :
    qualify identifier qualifier name ⟨scope, slot⟩ =
      Workplace.returning ⟨scope, slot⟩ (scope.qualify slot identifier qualifier name) := by
  simp only [qualify, Scope.qualify, get_bind]
  split
  · cases name with
    | none => exact modifySlot_bind scope slot _ _
    | some n => rfl
  · rw [modifySlot_bind]
    cases name with
    | none =>
        cases slot <;> rfl
    | some n =>
        simp only [Option.isSome_some, if_true, modifySlot_bind, Scope.modify_modify,
          modifyScope_bind]
        cases slot <;> rfl

theorem rebind_eq (identifier : Identifier) (token : Token) :
    rebind identifier token ⟨scope, slot⟩ =
      Workplace.returning ⟨scope, slot⟩
        ((scope.rebind slot identifier token).map fun bound => ((), bound)) := by
  rw [Scope.rebind_eq]
  simp only [rebind, checkLive_bind, settle_bind]
  split
  · rfl
  · cases identifier with
    | token old descriptor =>
        by_cases h : old = token
        · simp only [h, Scope.replacedToken?, ne_eq, not_true_eq_false, if_false, if_true]
          rfl
        · simp only [h, Scope.replacedToken?, ne_eq, not_false_eq_true, if_true, if_false, retire,
            bind_assoc, modifyScope_bind]
          rfl
    | _ => rfl

end

/-- Whatever operation on a scope and a slot is refused, both are as before. An identifier is
refused if its token is retired, a qualifier besides a name if the variable has an expression, and
a bind if the token to be bound is retired. -/
theorem refused_operation_changes_nothing (before : Workplace) (identifier : Identifier)
    (qualifier : String) (name : Option String) (token : Token) :
    (resolve identifier before =
        before.returning ((before.scope.resolve identifier).map fun found =>
          (found.1, before.slot, found.2)) ∧
      qualify identifier qualifier name before =
        before.returning (before.scope.qualify before.slot identifier qualifier name) ∧
      rebind identifier token before =
        before.returning ((before.scope.rebind before.slot identifier token).map fun bound =>
          ((), bound))) ∧
    (∀ fault after, resolve identifier before = .error fault after ↔
      after = before ∧ ∃ t ∈ identifier.token?, t ∈ before.scope.retired ∧
        fault = .unresolvedIdentifier t.display) ∧
    (∀ fault after, qualify identifier qualifier name before = .error fault after ↔
      after = before ∧ (∃ text ∈ (before.scope.get before.slot).expression, text ≠ "") ∧
        name.isSome ∧ fault = .duplicateQualification identifier.display qualifier) ∧
    ∀ fault after, rebind identifier token before = .error fault after ↔
      after = before ∧ token ∈ before.scope.retired ∧
        fault = .unresolvedIdentifier token.display := by
  obtain ⟨scope, slot⟩ := before
  refine ⟨⟨resolve_eq .., qualify_eq .., rebind_eq ..⟩, fun fault after => ?_,
    fun fault after => ?_, fun fault after => ?_⟩
  · rw [resolve_eq, Workplace.returning_eq_error_iff, map_eq_error_iff,
      Scope.resolve_eq_error_iff]
  · rw [qualify_eq, Workplace.returning_eq_error_iff, Scope.qualify_eq_error_iff]
  · rw [rebind_eq, Workplace.returning_eq_error_iff, map_eq_error_iff,
      Scope.rebind_eq_error_iff]

end InPlace

end GraphQuery
