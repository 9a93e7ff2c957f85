import GraphQuery.Draft.Block
import GraphQuery.Proofs.OrderedMap

/-! # Resolving

Resolution sees the variables known so far. To the parameters it only adds, so those of earlier
calls make no difference, and it fails over identifiers alone. -/

namespace GraphQuery

/-- The same knowledge after parameters that were mentioned earlier. -/
def Vocabulary.behind (known : Vocabulary) (earlier : OrderedMap String Value) : Vocabulary :=
  { known with parameters := earlier.insertAll known.parameters.entries }

/-- A fault of an identifier: it has no text, or one qualification too many. -/
inductive Fault.OfIdentifier : Fault → Prop
  | unresolved (shown : String) : OfIdentifier (.unresolvedIdentifier shown)
  | duplicate (shown requested : String) : OfIdentifier (.duplicateQualification shown requested)

/-! ## Faults of scopes -/

namespace Scope

variable {scope : Scope} {fault : Fault}

theorem checkLive_error {token : Token} (h : scope.checkLive token = .error fault) :
    fault.OfIdentifier := by
  simp only [checkLive] at h
  split at h
  · cases h
    exact .unresolved token.display
  · cases h

/-- What only asks whether a token is live fails over that alone. -/
theorem live_error {α : Type} {token : Token} {rest : Unit → Except Fault α}
    (hrest : ∀ fault', rest () ≠ .error fault')
    (h : (scope.checkLive token >>= rest) = .error fault) : fault.OfIdentifier := by
  cases hlive : scope.checkLive token with
  | error fault' =>
      rw [hlive] at h
      cases h
      exact checkLive_error hlive
  | ok _ =>
      rw [hlive] at h
      exact absurd h (hrest fault)

theorem resolve_error {identifier : Identifier} (h : scope.resolve identifier = .error fault) :
    fault.OfIdentifier := by
  cases identifier with
  | token token descriptor => exact live_error (fun _ h => by cases h) h
  | field owner path => exact live_error (fun _ h => by cases h) h
  | _ => cases h

theorem qualify_error {slot : Slot} {identifier : Identifier} {qualifier : String}
    {name : Option String} (h : scope.qualify slot identifier qualifier name = .error fault) :
    fault.OfIdentifier := by
  simp only [qualify] at h
  split at h
  · cases name with
    | some name =>
        cases h
        exact .duplicate identifier.display qualifier
    | none => cases h
  · cases h

theorem rebind_error {slot : Slot} {identifier : Identifier} {token : Token}
    (h : scope.rebind slot identifier token = .error fault) : fault.OfIdentifier :=
  live_error (fun _ h => by cases h) h

end Scope

/-! ## Actions on scopes -/

namespace Resolve

theorem bind_ok {α β : Type} {first : Resolve α} {rest : α → Resolve β}
    {known after : Vocabulary} {result : β} (h : (first >>= rest) known = .ok result after) :
    ∃ value middle, first known = .ok value middle ∧ rest value middle = .ok result after := by
  simp only [Bind.bind, EStateM.bind] at h
  cases hfirst : first known with
  | ok value middle =>
      rw [hfirst] at h
      exact ⟨value, middle, rfl, h⟩
  | error fault middle =>
      rw [hfirst] at h
      cases h

theorem bind_of_ok {α β : Type} {first : Resolve α} {rest : α → Resolve β}
    {known middle : Vocabulary} {value : α} (h : first known = .ok value middle) :
    (first >>= rest) known = rest value middle := by
  simp only [Bind.bind, EStateM.bind, h]

theorem bind_of_error {α β : Type} {first : Resolve α} {rest : α → Resolve β}
    {known after : Vocabulary} {fault : Fault} (h : first known = .error fault after) :
    (first >>= rest) known = .error fault after := by
  simp only [Bind.bind, EStateM.bind, h]

/-- Actions that look at nothing but the scope. -/
inductive Scoped : {α : Type} → Resolve α → Prop
  | done {α : Type} (result : α) : Scoped (pure result)
  | next {α β : Type} {first : Resolve α} {rest : α → Resolve β} (hfirst : Scoped first)
      (hrest : ∀ result, Scoped (rest result)) : Scoped (first >>= rest)
  | looking {β : Type} {rest : Scope → Resolve β} (hrest : ∀ scope, Scoped (rest scope)) :
      Scoped (get >>= fun known => rest known.scope)
  | onScope {α : Type} {operation : Scope → Except Fault (α × Scope)}
      (hfault : ∀ scope fault, operation scope = .error fault → fault.OfIdentifier) :
      Scoped (onScope operation)
  | noteParameter (identifier : Identifier) : Scoped (noteParameter identifier)
  | failed {α : Type} (shown : String) :
      Scoped (throw (.unresolvedIdentifier shown) : Resolve α)

namespace Scoped

variable {α β : Type}

/-! ## Uses -/

theorem slotFor (mention : Mention) (slot : Slot) : Scoped (slotFor mention slot) := by
  simp only [Resolve.slotFor]
  split
  · exact .looking fun scope => .done (Slot.detached (scope.get slot))
  · exact .done slot

theorem qualified {slot : Slot} {identifier : Identifier} {qualifier : String}
    {name : Option String} : Scoped (Resolve.onScope fun scope => do
      let (qualified, slot, scope) ← scope.qualify slot identifier qualifier name
      return ((qualified, slot), scope)) := by
  refine .onScope fun scope fault h => ?_
  cases hqualify : scope.qualify slot identifier qualifier name with
  | error fault' =>
      rw [hqualify] at h
      cases h
      exact Scope.qualify_error hqualify
  | ok result =>
      rw [hqualify] at h
      cases h

theorem qualify (mention : Mention) (slot : Slot) : Scoped (qualify mention slot) := by
  unfold Resolve.qualify
  split
  · exact .next qualified fun result => .done _
  · exact .next qualified fun result => .done _
  · exact .done _

theorem bind (mention : Mention) (slot : Slot) : Scoped (Resolve.bind mention slot) := by
  unfold Resolve.bind
  split
  · exact .onScope fun scope fault => Scope.rebind_error
  · exact .done slot

theorem use (mention : Mention) : Scoped (use mention) := by
  refine .next (.noteParameter mention.identifier) fun _ => ?_
  refine .next (.onScope fun scope fault => Scope.resolve_error) fun resolution => ?_
  refine .next (slotFor mention resolution.slot) fun slot => ?_
  refine .next (qualify mention slot) fun (qualified, slot) => ?_
  refine .next (bind mention slot) fun slot => ?_
  exact .looking fun scope => .done (Use.mk (scope.get slot) resolution.created qualified)

theorem reference (mention : Mention) : Scoped (reference mention) := by
  refine .next (use mention) fun used => ?_
  split
  · exact .done _
  · exact .failed _

theorem value (identifier : Identifier) : Scoped (value identifier) :=
  reference { identifier }

/-! ## Calls -/

theorem mapM {f : α → Resolve β} (hf : ∀ a, Scoped (f a)) (list : List α) :
    Scoped (list.mapM f) := by
  induction list with
  | nil => exact .done []
  | cons first rest ih =>
      rw [List.mapM_cons]
      exact .next (hf first) fun result => .next ih fun results => .done (result :: results)

theorem property (entry : String × Identifier) : Scoped (property entry) :=
  .next (value entry.2) fun _ => .done _

theorem element (mention : Mention) : Scoped (element mention) :=
  .next (use mention) fun _ => .next (mapM property mention.properties.entries) fun _ => .done _

theorem link (hop : Hop) : Scoped (link hop) :=
  .next (element hop.relationship) fun _ => .next (element hop.node) fun _ => .done _

theorem path : ∀ mention : Option Mention, Scoped (mention.mapM Resolve.reference)
  | none => .done none
  | some mention => .next (reference mention) fun text => .done (some text)

theorem chain (pattern : Pattern) : Scoped (chain pattern) :=
  .next (path pattern.path) fun _ => .next (element pattern.start) fun _ =>
    .next (mapM link pattern.hops) fun _ => .done _

theorem column (mention : Mention) : Scoped (column mention) := by
  refine .next (use mention) fun used => ?_
  split
  · exact .done _
  · exact .failed _

theorem sortKey (key : SortKey Identifier) : Scoped (sortKey key) :=
  .next (value key.operand) fun _ => .done _

theorem assignment (item : Assignment Identifier) : Scoped (item.mapM Resolve.value) := by
  cases item with
  | property target other =>
      exact .next (value target) fun _ => .next (value other) fun _ => .done _
  | labels target labels => exact .next (value target) fun _ => .done _
  | merge target other =>
      exact .next (value target) fun _ => .next (value other) fun _ => .done _
  | replace target other =>
      exact .next (value target) fun _ => .next (value other) fun _ => .done _

theorem removal (item : Removal Identifier) : Scoped (item.mapM Resolve.value) := by
  cases item with
  | property target => exact .next (value target) fun _ => .done _
  | labels target labels => exact .next (value target) fun _ => .done _

theorem update (change : Update Identifier) : Scoped (change.mapM Resolve.value) := by
  cases change with
  | set items => exact .next (mapM assignment items) fun _ => .done _
  | remove items => exact .next (mapM removal items) fun _ => .done _
  | delete detach targets => exact .next (mapM value targets) fun _ => .done _

mutual

theorem formula : ∀ formula : Condition, Scoped (formula.mapM Resolve.value)
  | .atom operand => .next (value operand) fun _ => .done _
  | .comparison left _ right => .next (value left) fun _ => .next (value right) fun _ => .done _
  | .boolean _ operands => .next (formulas operands) fun _ => .done _
  | .raw _ => .done _

theorem formulas : ∀ operands : List Condition,
    Scoped (Formula.mapOperandsM Resolve.value operands)
  | [] => .done []
  | operand :: rest => .next (formula operand) fun _ => .next (formulas rest) fun _ => .done _

end

theorem clause (call : Call) : Scoped call.clause := by
  cases call with
  | pattern verb patterns => exact .next (mapM chain patterns) fun _ => .done _
  | merge walk => exact .next (chain walk) fun _ => .done _
  | onMerge outcome items => exact .next (mapM assignment items) fun _ => .done _
  | condition condition => exact .next (formula condition) fun _ => .done _
  | project verb distinct items => exact .next (mapM column items) fun _ => .done _
  | orderBy keys => exact .next (mapM sortKey keys) fun _ => .done _
  | skip count => exact .next (value count) fun _ => .done _
  | limit count => exact .next (value count) fun _ => .done _
  | update change => exact .next (update change) fun _ => .done _
  | unwind list item => exact .next (value list) fun _ => .next (reference item) fun _ => .done _
  | yielding items => exact .next (mapM column items) fun _ => .done _
  | _ => exact .done _

theorem heading (item list : Identifier) : Scoped (Draft.heading item list) :=
  .next (value list) fun _ => .next (value item) fun _ => .done _

/-! ## What scoped actions do -/

variable {action : Resolve α}

/-- An action that fails does so over an identifier. -/
theorem error_ofIdentifier (haction : Scoped action) {known after : Vocabulary} {fault : Fault}
    (h : action known = .error fault after) : fault.OfIdentifier := by
  induction haction generalizing known after with
  | done result => cases h
  | @next _ _ first rest _ _ ihfirst ihrest =>
      cases hresult : first known with
      | ok result middle => exact ihrest result ((bind_of_ok hresult).symm.trans h)
      | error fault' middle =>
          cases (bind_of_error hresult).symm.trans h
          exact ihfirst hresult
  | looking _ ih => exact ih known.scope h
  | @onScope _ operation hfault =>
      unfold Resolve.onScope at h
      cases hresult : operation known.scope with
      | ok result =>
          simp only [hresult] at h
          cases h
      | error fault' =>
          simp only [hresult] at h
          cases h
          exact hfault known.scope fault hresult
  | noteParameter identifier => cases identifier <;> cases h
  | failed shown =>
      cases h
      exact .unresolved shown

/-- Earlier parameters stay in front of those an action mentions. -/
theorem apply_behind (haction : Scoped action) (earlier : OrderedMap String Value)
    (known : Vocabulary) :
    action (known.behind earlier) =
      match action known with
      | .ok result after => .ok result (after.behind earlier)
      | .error fault after => .error fault (after.behind earlier) := by
  induction haction generalizing known with
  | done result => rfl
  | @next _ _ first rest _ _ ihfirst ihrest =>
      simp only [Bind.bind, EStateM.bind, ihfirst]
      cases first known with
      | ok result middle => exact ihrest result middle
      | error fault middle => rfl
  | looking _ ih => exact ih known.scope known
  | @onScope _ operation _ =>
      simp only [Resolve.onScope, Vocabulary.behind]
      cases operation known.scope <;> rfl
  | noteParameter identifier =>
      cases identifier with
      | parameter name value =>
          have hinsert := OrderedMap.insertAll_insert earlier known.parameters name value
          exact congrArg (fun parameters => EStateM.Result.ok () { known with parameters })
            hinsert.symm
      | _ => rfl
  | failed shown => rfl

end Scoped

end Resolve

end GraphQuery
