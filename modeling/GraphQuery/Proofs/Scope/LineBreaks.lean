import GraphQuery.Proofs.Scope.Every
import GraphQuery.Proofs.Text.Line

/-! # Line breaks in a scope

Every text that is known of a variable is put together from those of the mentions it was used by.
Where none of these has a line break, none of the scope has. -/

namespace GraphQuery

open Text

/-! ## Texts of mentions -/

def Identifier.texts : Identifier → List String
  | .anonymous => []
  | .name text | .raw text => [text]
  | .token _ descriptor => (descriptor.map Descriptor.label).toList
  | .field _ path => [path.property]
  | .typeValue descriptor => [descriptor.label]
  | .parameter key _ => [key]

/-- The values of the properties are mentioned at sites of their own. -/
def Mention.texts (mention : Mention) : List String :=
  mention.identifier.texts ++ mention.qualifier.toList ++ mention.name.toList ++
    mention.label.toList ++ mention.properties.entries.map Prod.fst ++
    mention.propertiesText.toList ++ mention.length.toList

/-! ## Variables -/

theorem unbroken_none : ∀ text ∈ (none : Option String), Unbroken text := nofun

/-- No text of the variable has a line break. -/
structure Variable.Clear (v : Variable) : Prop where
  name : ∀ text ∈ v.name, Unbroken text := by exact unbroken_none
  expression : ∀ text ∈ v.expression, Unbroken text := by exact unbroken_none
  label : ∀ text ∈ v.label, Unbroken text := by exact unbroken_none

def Scope.Clear (scope : Scope) : Prop := ∀ k v, scope.at? k = some v → v.Clear

def Identifier.Clear (identifier : Identifier) : Prop := ∀ text ∈ identifier.texts, Unbroken text

def Mention.Clear (mention : Mention) : Prop := ∀ text ∈ mention.texts, Unbroken text

theorem Variable.Clear.reference? {v : Variable} (h : v.Clear) :
    ∀ text ∈ v.reference?, Unbroken text := by
  intro text htext
  obtain ⟨hgiven, -⟩ := Option.mem_filter_iff.mp htext
  rcases hname : v.name with _ | name
  · exact h.expression text (by simpa [hname] using hgiven)
  · exact h.name text (by simpa [hname] using hgiven)

theorem Variable.Clear.named {v : Variable} (h : v.Clear) {given : String}
    (hgiven : Unbroken given) : ({ v with name := some given } : Variable).Clear :=
  { h with name := by simpa using hgiven }

theorem Variable.Clear.expressed {v : Variable} (h : v.Clear) {text : String}
    (htext : Unbroken text) {name : Option String} (hname : ∀ text ∈ name, Unbroken text) :
    ({ v with expression := some text, name := name <|> v.name } : Variable).Clear where
  name := by
    cases name with
    | none => exact h.name
    | some given => exact hname
  expression := by simpa using htext
  label := h.label

/-- The variable of a use, and what it was before the use renamed it. -/
structure Use.Clear (used : Use) : Prop where
  found : used.found.Clear
  source : ∀ source, used.qualified = some (.renamed source) → Unbroken source

theorem Use.Clear.columnText {used : Use} (h : used.Clear) {name : String}
    (hname : Unbroken name) : Unbroken (used.columnText name) := by
  have horigin : ∀ origin, Unbroken origin →
      Unbroken (if origin = name then name else origin ++ " AS " ++ name) := by
    intro origin horigin
    split
    · exact hname
    · simp +decide [horigin, hname]
  unfold Use.columnText
  split
  · next source hsource => exact horigin source (h.source source hsource)
  · cases hexpression : used.found.expression with
    | none => exact horigin name hname
    | some text => exact horigin text (h.found.expression text hexpression)
  · exact horigin name hname

namespace Mention.Clear

variable {mention : Mention} (h : mention.Clear)
include h

theorem identifier : mention.identifier.Clear :=
  fun text htext => h text (by simp [texts, htext])

theorem label : ∀ text ∈ mention.label, Unbroken text :=
  fun text htext => h text (by simp_all [texts])

theorem length : ∀ text ∈ mention.length, Unbroken text :=
  fun text htext => h text (by simp_all [texts])

theorem propertiesText : ∀ text ∈ mention.propertiesText, Unbroken text :=
  fun text htext => h text (by simp_all [texts])

theorem key {entry : String × Identifier} (hentry : entry ∈ mention.properties.entries) :
    Unbroken entry.1 := by
  have hkey : entry.1 ∈ mention.properties.entries.map Prod.fst := List.mem_map_of_mem hentry
  exact h entry.1 (by simp only [texts, List.mem_append, hkey, true_or, or_true])

theorem qualification {qualifier : String} {name : Option String}
    (hasked : mention.qualification? = some (qualifier, name)) :
    Unbroken qualifier ∧ ∀ text ∈ name, Unbroken text := by
  unfold qualification? at hasked
  split at hasked
  · next hqualifier =>
      cases hasked
      exact ⟨h _ (by simp [texts, hqualifier]), fun text htext => h text (by simp_all [texts])⟩
  · next hname =>
      cases hasked
      exact ⟨h _ (by simp [texts, hname]), unbroken_none⟩
  · cases hasked

end Mention.Clear

namespace Scope

variable {scope : Scope} {identifier : Identifier}

theorem clear_empty : ({} : Scope).Clear := by
  intro k v hv
  cases hv

namespace Clear

variable (h : scope.Clear)
include h

theorem propertyText? (owner : Token) {property : String} (hproperty : Unbroken property) :
    ∀ text ∈ scope.propertyText? owner property, Unbroken text := by
  intro text htext
  simp only [Scope.propertyText?, Option.mem_def, Option.bind_eq_bind, Option.bind_eq_some_iff,
    Option.pure_def, Option.some.injEq] at htext
  obtain ⟨k, -, v, hv, reference, hreference, rfl⟩ := htext
  simp +decide [(h k v hv).reference? reference hreference, hproperty]

theorem beginning (hidentifier : identifier.Clear) : (scope.beginning identifier).Clear := by
  cases identifier with
  | anonymous => exact {}
  | name text | raw text =>
      have htext : Unbroken text := hidentifier text (.head _)
      exact { expression := by simpa [Scope.beginning] using htext }
  | token t descriptor =>
      exact { label := fun text htext => hidentifier text (Option.mem_toList.mpr htext) }
  | field owner path =>
      exact { expression := h.propertyText? owner (hidentifier path.property (.head _)) }
  | typeValue descriptor =>
      have hlabel : Unbroken descriptor.label := hidentifier descriptor.label (.head _)
      exact { label := by simpa [Scope.beginning] using hlabel }
  | parameter key value =>
      have hkey : Unbroken ("$" ++ key) :=
        unbroken_append.mpr ⟨by decide, hidentifier key (.head _)⟩
      exact { expression := by simpa [Scope.beginning] using hkey }

theorem refresh (hidentifier : identifier.Clear) (k : Nat) {v : Variable} (hv : v.Clear) :
    (scope.refresh identifier k v).Clear := by
  unfold Scope.refresh
  split
  · split
    · exact hv
    · exact { hv with expression := h.propertyText? _ (hidentifier _ (.head _)) }
  · exact hv

end Clear

end Scope

/-! ## Uses -/

theorem Mention.Clear.keeps {mention : Mention} (h : mention.Clear) :
    mention.Keeps Variable.Clear where
  blank := {}
  beginning hscope := Scope.Clear.beginning hscope h.identifier
  refresh k hscope hv := Scope.Clear.refresh hscope h.identifier k hv
  named hasked hv := hv.named (h.qualification hasked).1
  expressed hasked hv := hv.expressed (h.qualification hasked).1 (h.qualification hasked).2
  bound hv := { hv with }

theorem Use.Has.clear {used : Use} (h : used.Has Variable.Clear) : used.Clear where
  found := h.found
  source source hsource := by
    obtain ⟨before, hbefore, -, rfl⟩ := h.source source hsource
    cases hreference : before.reference? with
    | none => exact (by decide : Unbroken "")
    | some text => exact hbefore.reference? text hreference

theorem Scope.Clear.use {scope later : Scope} (h : scope.Clear) {mention : Mention}
    (hmention : mention.Clear) {used : Use} (hresult : scope.use mention = (.ok used, later)) :
    later.Clear ∧ used.Clear := by
  obtain ⟨hlater, hused⟩ := Every.use h hmention.keeps
  rw [hresult] at hlater hused
  exact ⟨hlater, (hused used rfl).clear⟩

end GraphQuery
