import GraphQuery.Clause.Chain

/-! # Empty parts

A part of an element that is given but empty should leave as much behind as one that is not given.
An empty label leaves nothing. An empty length leaves its star, and an empty text for the
properties leaves the space in front of it and hides the properties. -/

namespace GraphQuery

open Text

/-- The two kinds of elements, a relationship with its direction. -/
inductive Element.Kind
  | node
  | relationship (direction : Direction)

namespace Element

/-- What is written around the parts of an element. -/
def Kind.enclose : Kind → String → String
  | .node, body => "(" ++ body ++ ")"
  | .relationship direction, body =>
      let line := if body = "" then "--" else "-[" ++ body ++ "]-"
      match direction with
      | .outgoing => line ++ ">"
      | .incoming => "<" ++ line
      | .undirected => line

def textAs : Kind → Element → String
  | .node, element => element.nodeText
  | .relationship direction, element => element.relationshipText direction

/-- The parts in front of the properties. A node has no length. -/
def headAs : Kind → Element → String
  | .node, element => element.referenceText ++ element.labelText
  | .relationship _, element => element.referenceText ++ element.labelText ++ element.lengthText

theorem textAs_eq (kind : Kind) (element : Element) :
    element.textAs kind = kind.enclose (element.withProperties (element.headAs kind)) := by
  cases kind <;> rfl

theorem Kind.enclose_injective (kind : Kind) : Function.Injective kind.enclose := by
  intro body other h
  cases kind with
  | node => simpa [enclose] using h
  | relationship direction =>
      have hline : (if body = "" then "--" else "-[" ++ body ++ "]-") =
          if other = "" then "--" else "-[" ++ other ++ "]-" := by
        cases direction <;> simpa [enclose] using h
      have hopened : ∀ text : String, "--" ≠ "-[" ++ text ++ "]-" := by
        intro text heq
        simpa using congrArg String.toList heq
      by_cases hbody : body = "" <;> by_cases hother : other = ""
      · rw [hbody, hother]
      · simp only [hbody, hother, if_true, if_false] at hline
        exact absurd hline (hopened other)
      · simp only [hbody, hother, if_true, if_false] at hline
        exact absurd hline.symm (hopened body)
      · simpa [hbody, hother] using hline

/-! ## Leaving out empty parts -/

/-- The part is given, but empty, and is left out. -/
def Omits (given kept : Option String) : Prop := given = some "" ∧ kept = none

/-- The element with some of its parts left out that are given but empty. -/
structure Trims (element trimmed : Element) : Prop where
  reference : trimmed.reference = element.reference
  label : trimmed.label = element.label ∨ Omits element.label trimmed.label
  length : trimmed.length = element.length ∨ Omits element.length trimmed.length
  properties : trimmed.properties = element.properties
  propertiesText : trimmed.propertiesText = element.propertiesText ∨
    Omits element.propertiesText trimmed.propertiesText

/-- The map of the properties, if there are any. -/
def mapText? (element : Element) : Option String :=
  { element with propertiesText := none }.propertiesText?

variable {element trimmed : Element}

theorem mapText?_eq_none_iff : element.mapText? = none ↔ element.properties.isEmpty = true := by
  unfold mapText? propertiesText?
  cases element.properties.isEmpty <;> simp

theorem exists_of_mapText? {text : String} (h : element.mapText? = some text) :
    ∃ rest, text.toList = '\x7b' :: rest := by
  unfold mapText? propertiesText? at h
  cases hempty : element.properties.isEmpty with
  | true => simp [hempty] at h
  | false =>
      simp only [hempty, Bool.false_eq_true, if_false, Option.some.injEq] at h
      rw [← h]
      simp

theorem propertiesText?_of_some {text : String} (h : element.propertiesText = some text) :
    element.propertiesText? = some text := by
  rw [propertiesText?, h]

theorem propertiesText?_of_none (h : element.propertiesText = none) :
    element.propertiesText? = element.mapText? := by
  rw [mapText?, propertiesText?, propertiesText?, h]

/-- The head of an element with its properties behind it, if there is anything to write of them. -/
def attach (head : String) : Option String → String
  | none => head
  | some text => if head = "" then text else head ++ " " ++ text

theorem withProperties_eq_attach (element : Element) (head : String) :
    element.withProperties head = attach head element.propertiesText? := by
  unfold withProperties attach
  cases element.propertiesText? <;> rfl

/-- An empty text is written as the map would be only if there is nothing else to write. -/
theorem attach_mapText?_iff (head : String) :
    attach head element.mapText? = attach head (some "") ↔
      head = "" ∧ element.properties.isEmpty = true := by
  rw [← mapText?_eq_none_iff]
  cases hmap : element.mapText? with
  | none =>
      by_cases hhead : head = ""
      · simp [attach, hhead]
      · have hspace : head ≠ head ++ " " := fun heq => by
          simpa using congrArg String.length heq
        simpa [attach, hhead] using hspace
  | some text =>
      obtain ⟨rest, htext⟩ := exists_of_mapText? hmap
      have hne : text ≠ "" := by
        rintro rfl
        cases htext
      by_cases hhead : head = "" <;> simp [attach, hhead, hne]

/-- What is attached to a head with a star behind it differs from what the head is written with. -/
theorem attach_star_ne (head : String) (text? : Option String) :
    attach head text? ≠ attach (head ++ "*") text? := by
  intro h
  have hlength := congrArg String.length h
  cases text? with
  | none => simp [attach] at hlength
  | some text =>
      by_cases hhead : head = "" <;> simp [attach, hhead] at hlength

theorem attach_mapText?_ne (head : String) :
    attach head element.mapText? ≠ attach (head ++ "*") (some "") := by
  intro h
  have hchars := congrArg String.toList h
  cases hmap : element.mapText? with
  | none => simp [attach, hmap] at hchars
  | some text =>
      obtain ⟨rest, htext⟩ := exists_of_mapText? hmap
      by_cases hhead : head = "" <;> simp [attach, hmap, hhead, htext] at hchars

namespace Trims

variable (h : element.Trims trimmed)
include h

theorem labelText : trimmed.labelText = element.labelText := by
  obtain hsame | ⟨hgiven, hkept⟩ := h.label
  · rw [Element.labelText, Element.labelText, hsame]
  · simp [Element.labelText, hgiven, hkept]

/-- Without an empty length the head of a relationship has lost a star. -/
theorem headAs (kind : Kind) :
    ((trimmed.length = element.length ∨ kind = .node) ∧
        trimmed.headAs kind = element.headAs kind) ∨
      ¬ (trimmed.length = element.length ∨ kind = .node) ∧
        element.headAs kind = trimmed.headAs kind ++ "*" := by
  have hreference : trimmed.referenceText = element.referenceText := by
    rw [Element.referenceText, Element.referenceText, h.reference]
  cases kind with
  | node => exact .inl ⟨.inr rfl, by rw [Element.headAs, Element.headAs, hreference, h.labelText]⟩
  | relationship direction =>
      simp only [Element.headAs, hreference, h.labelText, reduceCtorEq, or_false]
      obtain hsame | ⟨hgiven, hkept⟩ := h.length
      · exact .inl ⟨hsame, by rw [Element.lengthText, Element.lengthText, hsame]⟩
      · refine .inr ⟨by simp [hgiven, hkept], ?_⟩
        simp [Element.lengthText, hgiven, hkept, withMark]

theorem propertiesText? :
    (trimmed.propertiesText = element.propertiesText ∧
        trimmed.propertiesText? = element.propertiesText?) ∨
      trimmed.propertiesText ≠ element.propertiesText ∧
        element.propertiesText? = some "" ∧ trimmed.propertiesText? = element.mapText? := by
  have hmap : trimmed.mapText? = element.mapText? := by
    rw [mapText?, mapText?, Element.propertiesText?, Element.propertiesText?, h.properties]
  obtain hsame | ⟨hgiven, hkept⟩ := h.propertiesText
  · refine .inl ⟨hsame, ?_⟩
    rw [Element.propertiesText?, Element.propertiesText?, hsame, h.properties]
  · refine .inr ⟨by simp [hgiven, hkept], propertiesText?_of_some hgiven, ?_⟩
    rw [propertiesText?_of_none hkept, hmap]

/-- The text is the same unless a relationship has lost its empty length, or the properties their
empty text where something else is written. -/
theorem textAs_eq_iff (kind : Kind) :
    trimmed.textAs kind = element.textAs kind ↔
      (trimmed.length = element.length ∨ kind = .node) ∧
        (trimmed.propertiesText = element.propertiesText ∨
          element.headAs kind = "" ∧ element.properties.isEmpty = true) := by
  rw [textAs_eq, textAs_eq, kind.enclose_injective.eq_iff, withProperties_eq_attach,
    withProperties_eq_attach]
  obtain ⟨hlength, hhead⟩ | ⟨hlength, hhead⟩ := h.headAs kind
  · rw [hhead]
    obtain ⟨hsame, hproperties⟩ | ⟨hother, hgiven, hkept⟩ := h.propertiesText?
    · exact iff_of_true (by rw [hproperties]) ⟨hlength, .inl hsame⟩
    · rw [hgiven, hkept, attach_mapText?_iff]
      simp only [hlength, hother, true_and, false_or]
  · refine iff_of_false ?_ fun hboth => hlength hboth.1
    rw [hhead]
    obtain ⟨-, hproperties⟩ | ⟨-, hgiven, hkept⟩ := h.propertiesText?
    · rw [hproperties]
      exact attach_star_ne _ _
    · rw [hgiven, hkept]
      exact attach_mapText?_ne _

end Trims

/-! ## What is written -/

/-- A part with its mark in front of it, unless it is empty. -/
def part (mark : Char) (text? : Option String) : String :=
  match text?.filter (· ≠ "") with
  | some text => withMark mark text
  | none => ""

def partsInHead : Kind → Element → String
  | .node, element => element.reference.getD "" ++ part ':' element.label
  | .relationship _, element =>
      element.reference.getD "" ++ part ':' element.label ++ part '*' element.length

/-- The text given for the properties, unless it is empty, else their map. -/
def partsInProperties (element : Element) : String :=
  (element.propertiesText.filter (· ≠ "") <|> element.mapText?).getD ""

/-- The parts of an element that are not empty, with a space in front of the properties if
something else is written. -/
def parts (kind : Kind) (element : Element) : String :=
  joinWith " " ([element.partsInHead kind, element.partsInProperties].filter (· ≠ ""))

/-- The element with all its empty parts left out. -/
def bare (element : Element) : Element :=
  { element with
    label := element.label.filter (· ≠ "")
    length := element.length.filter (· ≠ "")
    propertiesText := element.propertiesText.filter (· ≠ "") }

theorem filter_cases (part? : Option String) :
    (part? ≠ some "" ∧ part?.filter (· ≠ "") = part?) ∨ Omits part? (part?.filter (· ≠ "")) := by
  cases part? with
  | none => exact .inl ⟨nofun, rfl⟩
  | some text =>
      by_cases htext : text = ""
      · exact .inr ⟨by rw [htext], by simp [htext]⟩
      · exact .inl ⟨by simpa using htext, by simp [htext]⟩

theorem filter_eq_self_iff {part? : Option String} :
    part?.filter (· ≠ "") = part? ↔ part? ≠ some "" := by
  obtain ⟨hne, hsame⟩ | ⟨hgiven, hkept⟩ := filter_cases part?
  · exact iff_of_true hsame hne
  · refine iff_of_false ?_ (fun hne => hne hgiven)
    simp [hgiven]

theorem trims_bare (element : Element) : element.Trims element.bare where
  reference := rfl
  label := (filter_cases element.label).imp_left And.right
  length := (filter_cases element.length).imp_left And.right
  properties := rfl
  propertiesText := (filter_cases element.propertiesText).imp_left And.right

theorem headAs_bare (kind : Kind) (element : Element) :
    element.bare.headAs kind = element.partsInHead kind := by
  have hlabel : element.bare.labelText = part ':' element.label := by
    simp only [labelText, bare, part]
    cases hlabel : element.label.filter (· ≠ "") with
    | none => rfl
    | some label =>
        have hne : label ≠ "" := by simpa using (Option.filter_eq_some_iff.mp hlabel).2
        simp only [hne, if_false]
  have hlength : element.bare.lengthText = part '*' element.length := by
    simp only [lengthText, bare, part]
    cases element.length.filter (· ≠ "") <;> rfl
  cases kind with
  | node => rw [headAs, partsInHead, hlabel, referenceText, bare]
  | relationship direction => rw [headAs, partsInHead, hlabel, hlength, referenceText, bare]

theorem propertiesText?_bare (element : Element) :
    element.bare.propertiesText? =
      (element.propertiesText.filter (· ≠ "") <|> element.mapText?) := by
  simp only [propertiesText?, bare, mapText?]
  cases element.propertiesText.filter (· ≠ "") <;> rfl

theorem propertiesText?_bare_ne (element : Element) :
    element.bare.propertiesText? ≠ some "" := by
  rw [propertiesText?_bare]
  intro h
  cases hgiven : element.propertiesText.filter (· ≠ "") with
  | some text =>
      rw [hgiven] at h
      cases h
      simpa using (Option.filter_eq_some_iff.mp hgiven).2
  | none =>
      rw [hgiven] at h
      obtain ⟨rest, hrest⟩ := exists_of_mapText? h
      cases hrest

theorem attach_eq_joinWith (head : String) {text? : Option String} (h : text? ≠ some "") :
    attach head text? = joinWith " " ([head, text?.getD ""].filter (· ≠ "")) := by
  cases text? with
  | none => by_cases hhead : head = "" <;> simp [attach, hhead]
  | some text =>
      have htext : text ≠ "" := fun hempty => h (by rw [hempty])
      by_cases hhead : head = "" <;> simp [attach, hhead, htext]

theorem textAs_bare (kind : Kind) (element : Element) :
    element.bare.textAs kind = kind.enclose (element.parts kind) := by
  rw [textAs_eq, withProperties_eq_attach, attach_eq_joinWith _ element.propertiesText?_bare_ne,
    headAs_bare, propertiesText?_bare, parts, partsInProperties]

/-- Leaving out empty parts leaves the text as it is, unless a relationship has an empty length or
the text for the properties is empty where something else is written. Without such a length and
such a text, just the parts that are not empty are written. -/
theorem empty_parts_unwritten (element : Element) (kind : Kind) :
    (∀ trimmed, element.Trims trimmed →
      (trimmed.textAs kind = element.textAs kind ↔
        (trimmed.length = element.length ∨ kind = .node) ∧
          (trimmed.propertiesText = element.propertiesText ∨
            element.headAs kind = "" ∧ element.properties.isEmpty = true))) ∧
      (element.textAs kind = kind.enclose (element.parts kind) ↔
        (element.length ≠ some "" ∨ kind = .node) ∧
          (element.propertiesText ≠ some "" ∨
            element.headAs kind = "" ∧ element.properties.isEmpty = true)) := by
  refine ⟨fun trimmed h => h.textAs_eq_iff kind, ?_⟩
  have hbare := element.trims_bare.textAs_eq_iff kind
  simp only [bare, filter_eq_self_iff] at hbare
  rw [← hbare, ← textAs_bare, eq_comm, bare]

/-- An element of which only the reference is not empty. -/
def hollowElement : Element :=
  { reference := some "r", label := some "", length := some "", propertiesText := some "" }

/-- An empty length and an empty text for the properties leave a star and a space behind. -/
theorem empty_parts_written_hollowElement :
    hollowElement.Trims { reference := some "r" } ∧
      hollowElement.textAs .node = "(r )" ∧
      textAs .node { reference := some "r" } = "(r)" ∧
      hollowElement.textAs (.relationship .outgoing) = "-[r* ]->" ∧
      textAs (.relationship .outgoing) { reference := some "r" } = "-[r]->" := by
  refine ⟨⟨rfl, .inr ⟨rfl, rfl⟩, .inr ⟨rfl, rfl⟩, rfl, .inr ⟨rfl, rfl⟩⟩, ?_⟩
  decide

end Element

end GraphQuery
