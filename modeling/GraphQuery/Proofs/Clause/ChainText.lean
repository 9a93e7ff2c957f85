import GraphQuery.Clause.Chain
import GraphQuery.Proofs.OrderedMap
import GraphQuery.Proofs.Text.Legible

/-! # Reading chains

The text of chains tells them apart, as long as what stands in them is plain: of two lists of
chains that print alike, all parts are the same. -/

namespace GraphQuery

open Text

/-! ## Plain parts -/

/-- A character that may stand in a plain name. -/
def isNamePart (c : Char) : Bool := isAlphanumeric c || c == '_'

/-- A character of plain names and of what refers to a parameter. -/
def isValuePart (c : Char) : Bool := isNamePart c || c == '$'

/-- A character of numbers and of ranges between them. -/
def isLengthPart (c : Char) : Bool := c.isDigit || c == '.'

/-- A plain name behind the sign of a parameter. -/
def isParameterText (text : String) : Bool :=
  match text.toList with
  | '$' :: name => isPlainName (String.ofList name)
  | _ => false

def isPlainValue (text : String) : Bool := isPlainName text || isParameterText text

theorem isNamePart_of_isPlainName {name : String} (h : isPlainName name = true) :
    ∀ c ∈ name.toList, isNamePart c = true := by
  unfold isPlainName at h
  split at h
  · cases h
  · next first rest heq =>
      rw [heq]
      obtain ⟨hfirst, hrest⟩ := Bool.and_eq_true_iff.mp h
      refine List.forall_mem_cons.mpr ⟨?_, List.all_eq_true.mp hrest⟩
      rcases Bool.or_eq_true_iff.mp hfirst with halpha | hunder
      · simp [isNamePart, isAlphanumeric, halpha]
      · simp [isNamePart, hunder]

theorem ne_empty_of_isPlainName {name : String} (h : isPlainName name = true) : name ≠ "" := by
  rintro rfl
  cases h

theorem isValuePart_of_isPlainName {name : String} (h : isPlainName name = true) :
    ∀ c ∈ name.toList, isValuePart c = true :=
  fun c hc => Bool.or_eq_true_iff.mpr (.inl (isNamePart_of_isPlainName h c hc))

theorem exists_of_isParameterText {text : String} (h : isParameterText text = true) :
    ∃ name, isPlainName name = true ∧ text = "$" ++ name := by
  unfold isParameterText at h
  split at h
  · next name heq =>
      refine ⟨String.ofList name, h, String.toList_inj.mp ?_⟩
      simp [heq]
  · cases h

theorem isValuePart_of_isPlainValue {text : String} (h : isPlainValue text = true) :
    ∀ c ∈ text.toList, isValuePart c = true := by
  rcases Bool.or_eq_true_iff.mp h with hname | hparameter
  · exact isValuePart_of_isPlainName hname
  · obtain ⟨name, hname, rfl⟩ := exists_of_isParameterText hparameter
    rw [String.toList_append]
    exact List.forall_mem_append.mpr ⟨by decide, isValuePart_of_isPlainName hname⟩

theorem next_of_isParameterText {text : String} (h : isParameterText text = true)
    {rest : List Char} : Next ['$'] (text.toList ++ rest) := by
  obtain ⟨name, -, rfl⟩ := exists_of_isParameterText h
  rw [String.toList_append, List.append_assoc]
  exact next_cons.mpr (by decide)

/-- An element of which each part can be told from what stands around it. -/
structure Element.Plain (element : Element) : Prop where
  reference : ∀ name ∈ element.reference, isPlainName name = true
  label : ∀ name ∈ element.label, isPlainName name = true
  length : ∀ text ∈ element.length, ∀ c ∈ text.toList, isLengthPart c = true
  properties : ∀ entry ∈ element.properties.entries,
    isPlainName entry.1 = true ∧ isPlainValue entry.2 = true
  propertiesText : ∀ text ∈ element.propertiesText,
    isParameterText text = true ∧ element.properties.isEmpty = true

instance (element : Element) : Decidable element.Plain :=
  decidable_of_iff (_ ∧ _ ∧ _ ∧ _ ∧ _)
    ⟨fun ⟨reference, label, length, properties, propertiesText⟩ =>
      ⟨reference, label, length, properties, propertiesText⟩,
    fun h => ⟨h.reference, h.label, h.length, h.properties, h.propertiesText⟩⟩

structure Link.Plain (link : Link) : Prop where
  relationship : link.relationship.Plain
  node : link.node.Plain
  node_length : link.node.length = none

instance (link : Link) : Decidable link.Plain :=
  decidable_of_iff (_ ∧ _ ∧ _)
    ⟨fun ⟨relationship, node, length⟩ => ⟨relationship, node, length⟩,
    fun h => ⟨h.relationship, h.node, h.node_length⟩⟩

structure Chain.Plain (chain : Chain) : Prop where
  path : ∀ name ∈ chain.path, isPlainName name = true
  start : chain.start.Plain
  start_length : chain.start.length = none
  links : ∀ link ∈ chain.links, link.Plain

instance (chain : Chain) : Decidable chain.Plain :=
  decidable_of_iff (_ ∧ _ ∧ _ ∧ _)
    ⟨fun ⟨path, start, length, links⟩ => ⟨path, start, length, links⟩,
    fun h => ⟨h.path, h.start, h.start_length, h.links⟩⟩

/-! ## Parts of an element -/

/-- A name that stands there or not. -/
theorem legible_name (cs : List Char) (hcs : ∀ c ∈ cs, isNamePart c = false) :
    Legible (fun name? : Option String => ∀ name ∈ name?, isPlainName name = true) (Next cs)
      (·.getD "") id := by
  have hword : ∀ name? : Option String, (∀ name ∈ name?, isPlainName name = true) →
      ∀ c ∈ (name?.getD "").toList, isNamePart c = true := by
    rintro (_ | name) hname
    · exact List.forall_mem_nil _
    · exact isNamePart_of_isPlainName (hname name rfl)
  intro a b ha hb rest others hrest hothers h
  obtain ⟨htexts, hrests⟩ := legible_word hword hcs ha hb hrest hothers h
  refine ⟨?_, hrests⟩
  cases a with
  | none =>
      cases b with
      | none => rfl
      | some name => exact absurd htexts.symm (ne_empty_of_isPlainName (hb name rfl))
  | some name =>
      cases b with
      | none => exact absurd htexts (ne_empty_of_isPlainName (ha name rfl))
      | some other => exact congrArg some htexts

namespace Element

variable {element : Element}

theorem withMark_of_part {p : Char → Bool} {mark : Char} (hmark : p mark = false) {text : String}
    (htext : ∀ c ∈ text.toList, p c = true) :
    withMark mark text = String.singleton mark ++ text := by
  refine if_neg fun hhead => ?_
  have hpart := htext mark (List.mem_of_mem_head? hhead)
  rw [hmark] at hpart
  cases hpart

theorem Plain.labelText (h : element.Plain) : element.labelText = marked ':' element.label := by
  unfold Element.labelText
  cases hlabel : element.label with
  | none => rfl
  | some label =>
      have hname := h.label label hlabel
      simp only [ne_empty_of_isPlainName hname, if_false]
      exact withMark_of_part (by decide) (isNamePart_of_isPlainName hname)

theorem Plain.lengthText (h : element.Plain) : element.lengthText = marked '*' element.length := by
  unfold Element.lengthText
  cases hlength : element.length with
  | none => rfl
  | some text => exact withMark_of_part (by decide) (h.length text hlength)

/-- The properties as they stand behind a head. -/
def propertiesPart (element : Element) (head : String) : String :=
  match element.propertiesText? with
  | none => ""
  | some text => if head = "" then text else " " ++ text

theorem withProperties_eq (head : String) :
    element.withProperties head = head ++ element.propertiesPart head := by
  unfold withProperties propertiesPart
  cases element.propertiesText? with
  | none => exact (String.append_empty).symm
  | some text =>
      by_cases hhead : head = ""
      · simp [hhead]
      · simp [hhead, String.append_assoc]

end Element

theorem legible_entry :
    Legible
      (fun entry : String × String => isPlainName entry.1 = true ∧ isPlainValue entry.2 = true)
      (Next [',', '\x7d']) (fun entry => entry.1 ++ ": " ++ entry.2) id := by
  rintro ⟨key, value⟩ ⟨other, otherValue⟩ ⟨hkey, hvalue⟩ ⟨hother, hotherValue⟩ rest later hrest
    hlater h
  simp only [String.toList_append, List.append_assoc] at h
  have hkeys : Legible (fun name => isPlainName name = true) (Next [':']) id id :=
    legible_word (fun _ => isNamePart_of_isPlainName) (by decide)
  have hvalues : Legible (fun value => isPlainValue value = true) (Next [',', '\x7d']) id id :=
    legible_word (fun _ => isValuePart_of_isPlainValue) (by decide)
  have hcolon : ∀ rest, Next [':'] (": ".toList ++ rest) := fun _ => next_cons.mpr (by decide)
  obtain ⟨rfl, htail⟩ := hkeys hkey hother (hcolon _) (hcolon _) h
  obtain ⟨rfl, hrests⟩ := hvalues hvalue hotherValue hrest hlater (List.append_cancel_left htail)
  exact ⟨rfl, hrests⟩

/-- A map of properties, which is never empty. -/
theorem legible_entries :
    Legible (fun entries : List (String × String) => entries ≠ [] ∧ ∀ entry ∈ entries,
        isPlainName entry.1 = true ∧ isPlainValue entry.2 = true)
      (Next ['\x7d'])
      (fun entries => joinWith ", " (entries.map fun entry => entry.1 ++ ": " ++ entry.2)) id := by
  refine legible_entry.joined (fun rest => next_cons.mpr (by decide)) fun rest hrest => ?_
  refine ⟨hrest.mono (by decide), ?_⟩
  rintro later rfl
  exact absurd (next_cons.mp hrest) (by decide)

namespace Element

variable {element : Element}

/-- What is written of the properties: nothing, a parameter or a map. -/
theorem Plain.propertiesText?_cases (h : element.Plain) :
    element.propertiesText? = none ∧
        element.properties.entries = [] ∧ element.propertiesText = none ∨
      (∃ text, element.propertiesText? = some text ∧ isParameterText text = true ∧
        element.properties.entries = [] ∧ element.propertiesText = some text) ∨
      element.propertiesText? = some ("\x7b" ++ joinWith ", "
          (element.properties.entries.map fun entry => entry.1 ++ ": " ++ entry.2) ++ "\x7d") ∧
        element.properties.entries ≠ [] ∧ element.propertiesText = none := by
  unfold propertiesText?
  cases hgiven : element.propertiesText with
  | some text =>
      obtain ⟨hparameter, hempty⟩ := h.propertiesText text hgiven
      exact .inr (.inl ⟨text, rfl, hparameter, List.isEmpty_iff.mp hempty, rfl⟩)
  | none =>
      cases hempty : element.properties.isEmpty with
      | true => exact .inl ⟨rfl, List.isEmpty_iff.mp hempty, rfl⟩
      | false => exact .inr (.inr ⟨rfl, List.isEmpty_eq_false_iff.mp hempty, rfl⟩)

end Element

theorem legible_parameter :
    Legible (fun text => isParameterText text = true) (Next [')', ']']) id id :=
  legible_word (fun text h =>
    isValuePart_of_isPlainValue (Bool.or_eq_true_iff.mpr (.inr h))) (by decide)

theorem legible_properties :
    Legible Element.Plain (Next [')', ']']) (fun element => element.propertiesText?.getD "")
      (fun element => (element.properties.entries, element.propertiesText)) := by
  intro a b ha hb rest others hrest hothers h
  have hmap : ∀ {later : List Char}, Next ['\x7b'] ("\x7b".toList ++ later) :=
    next_cons.mpr (by decide)
  rcases ha.propertiesText?_cases with ⟨hwritten, hentries, hgiven⟩ |
      ⟨text, hwritten, hparameter, hentries, hgiven⟩ | ⟨hwritten, hentries, hgiven⟩ <;>
    rcases hb.propertiesText?_cases with ⟨hwritten', hentries', hgiven'⟩ |
      ⟨text', hwritten', hparameter', hentries', hgiven'⟩ |
      ⟨hwritten', hentries', hgiven'⟩ <;>
    simp only [hwritten, hwritten', hgiven, hgiven', Option.getD_none, Option.getD_some,
      String.toList_append, List.append_assoc, String.toList_empty, List.nil_append] at h ⊢
  · exact ⟨by rw [hentries, hentries'], h⟩
  · exact ((h ▸ hrest).disjoint (next_of_isParameterText hparameter') (by decide)).elim
  · exact ((h ▸ hrest).disjoint hmap (by decide)).elim
  · exact ((h ▸ hothers).disjoint (next_of_isParameterText hparameter) (by decide)).elim
  · obtain ⟨htexts, hrests⟩ := legible_parameter hparameter hparameter' hrest hothers h
    have htexts : text = text' := htexts
    exact ⟨by rw [hentries, hentries', htexts], hrests⟩
  · exact ((h ▸ next_of_isParameterText hparameter).disjoint hmap (by decide)).elim
  · exact ((h ▸ hothers).disjoint hmap (by decide)).elim
  · exact ((h ▸ next_of_isParameterText hparameter').disjoint hmap (by decide)).elim
  · obtain ⟨hmaps, hclosed⟩ := legible_entries ⟨hentries, ha.properties⟩ ⟨hentries', hb.properties⟩
      (next_cons.mpr (by decide)) (next_cons.mpr (by decide)) (List.append_cancel_left h)
    exact ⟨congrArg (·, none) hmaps, List.tail_eq_of_cons_eq hclosed⟩

/-- Behind the same head, a space parts the properties from it or nothing does. -/
theorem legible_propertiesPart (head : String) :
    Legible Element.Plain (Next [')', ']']) (fun element => element.propertiesPart head)
      (fun element => (element.properties.entries, element.propertiesText)) := by
  intro a b ha hb rest others hrest hothers h
  refine legible_properties ha hb hrest hothers ?_
  simp only [Element.propertiesPart] at h ⊢
  by_cases hhead : head = ""
  · cases hfirst : a.propertiesText? <;> cases hsecond : b.propertiesText? <;>
      simpa [hfirst, hsecond, hhead] using h
  · cases hfirst : a.propertiesText? <;> cases hsecond : b.propertiesText? <;>
      simp only [hfirst, hsecond, hhead, if_false, String.toList_append, List.append_assoc,
        String.toList_empty, List.nil_append, Option.getD_none, Option.getD_some] at h ⊢
    · exact h
    · exact absurd (next_cons.mp (h ▸ hrest)) (by decide)
    · exact absurd (next_cons.mp (h ▸ hothers)) (by decide)
    · exact List.append_cancel_left h

theorem Element.Plain.propertiesPart_next {element : Element} (h : element.Plain) (head : String)
    {rest : List Char} (hrest : Next [')', ']'] rest) :
    Next [' ', '$', '\x7b', ')', ']'] ((element.propertiesPart head).toList ++ rest) := by
  unfold propertiesPart
  rcases h.propertiesText?_cases with ⟨hwritten, -⟩ | ⟨text, hwritten, hparameter, -⟩ |
    ⟨hwritten, -⟩ <;> rw [hwritten]
  · exact hrest.mono (by decide)
  · by_cases hhead : head = ""
    · rw [hhead]
      exact (next_of_isParameterText hparameter).mono (by decide)
    · simp only [hhead, if_false, String.toList_append, List.append_assoc]
      exact next_cons.mpr (by decide)
  · by_cases hhead : head = "" <;>
      simp only [hhead, if_false, if_true, String.toList_append, List.append_assoc] <;>
      exact next_cons.mpr (by decide)

/-! ## Elements -/

attribute [ext] Element Link Chain

/-- All that is said of an element, without its brackets. -/
def Element.body (element : Element) : String :=
  element.withProperties (element.referenceText ++ element.labelText ++ element.lengthText)

theorem legible_body : Legible Element.Plain (Next [')', ']']) Element.body id := by
  intro a b ha hb rest others hrest hothers h
  simp only [Element.body, Element.withProperties_eq, ha.labelText, hb.labelText, ha.lengthText,
    hb.lengthText, String.toList_append, List.append_assoc] at h
  have hnext := fun head => ha.propertiesPart_next head hrest
  have hnext' := fun head => hb.propertiesPart_next head hothers
  obtain ⟨hreference, hlater⟩ := legible_name [':', '*', ' ', '$', '\x7b', ')', ']'] (by decide)
    ha.reference hb.reference (((hnext _).marked '*' _).marked ':' _)
    (((hnext' _).marked '*' _).marked ':' _) h
  obtain ⟨hlabel, hlater⟩ := legible_marked (p := isNamePart) (by decide) (by decide)
    (fun name hname => isNamePart_of_isPlainName (ha.label name hname))
    (fun name hname => isNamePart_of_isPlainName (hb.label name hname))
    ((hnext _).marked '*' _) ((hnext' _).marked '*' _) hlater
  obtain ⟨hlength, hlater⟩ := legible_marked (p := isLengthPart) (by decide) (by decide)
    ha.length hb.length (hnext _) (hnext' _) hlater
  simp only [id_eq] at hreference hlabel hlength
  rw [Element.referenceText, Element.referenceText, hreference, hlabel, hlength] at hlater
  obtain ⟨hproperties, hrests⟩ := legible_propertiesPart _ ha hb hrest hothers hlater
  obtain ⟨hentries, hgiven⟩ := Prod.mk.inj hproperties
  exact ⟨Element.ext hreference hlabel hlength (OrderedMap.ext_entries hentries) hgiven, hrests⟩

theorem legible_node :
    Legible (fun element : Element => element.Plain ∧ element.length = none) (fun _ => True)
      Element.nodeText id := by
  have hbody : ∀ element : Element, element.length = none →
      element.nodeText = "(" ++ element.body ++ ")" := by
    intro element hlength
    simp only [Element.nodeText, Element.body, Element.lengthText, hlength, String.append_empty]
  rintro a b ⟨ha, hlength⟩ ⟨hb, hlength'⟩ rest others _ _ h
  simp only [hbody a hlength, hbody b hlength', String.toList_append, List.append_assoc] at h
  have hclosed : ∀ rest, Next [')', ']'] (")".toList ++ rest) := fun _ => next_cons.mpr (by decide)
  obtain ⟨hsame, hrests⟩ := legible_body ha hb (hclosed _) (hclosed _) (List.append_cancel_left h)
  exact ⟨hsame, List.append_cancel_left hrests⟩

/-! ## Links -/

/-- A relationship without the tips of its arrow. -/
def Element.line (element : Element) : String :=
  if element.body = "" then "--" else "-[" ++ element.body ++ "]-"

theorem legible_line : Legible Element.Plain (fun _ => True) Element.line id := by
  intro a b ha hb rest others _ _ h
  unfold Element.line at h
  by_cases hempty : a.body = "" <;> by_cases hempty' : b.body = "" <;>
    simp only [hempty, hempty', if_true, if_false, String.toList_append, List.append_assoc] at h
  · have hbodies : a.body.toList ++ [')'] = b.body.toList ++ [')'] := by rw [hempty, hempty']
    obtain ⟨hsame, -⟩ := legible_body ha hb (next_cons.mpr (by decide))
      (next_cons.mpr (by decide)) hbodies
    exact ⟨hsame, List.append_cancel_left h⟩
  · cases List.head_eq_of_cons_eq (List.tail_eq_of_cons_eq h)
  · cases List.head_eq_of_cons_eq (List.tail_eq_of_cons_eq h)
  · have hclosed : ∀ rest, Next [')', ']'] ("]-".toList ++ rest) :=
      fun _ => next_cons.mpr (by decide)
    obtain ⟨hsame, hrests⟩ := legible_body ha hb (hclosed _) (hclosed _) (List.append_cancel_left h)
    exact ⟨hsame, List.append_cancel_left hrests⟩

theorem Element.line_next (element : Element) {rest : List Char} :
    Next ['-'] (element.line.toList ++ rest) := by
  unfold Element.line
  split
  · exact next_cons.mpr (by decide)
  · simp only [String.toList_append, List.append_assoc]
    exact next_cons.mpr (by decide)

theorem Element.nodeText_next (element : Element) {rest : List Char} :
    Next ['('] (element.nodeText.toList ++ rest) := by
  simp only [nodeText, String.toList_append, List.append_assoc]
  exact next_cons.mpr (by decide)

theorem Link.text_eq (link : Link) :
    link.text = (if link.direction == .incoming then "<" else "") ++ link.relationship.line ++
      (if link.direction == .outgoing then ">" else "") ++ link.node.nodeText := by
  cases hdirection : link.direction <;>
    simp [Link.text, Element.relationshipText, hdirection] <;> rfl

theorem Direction.eq_of_tips {direction other : Direction}
    (hincoming : (direction == .incoming) = (other == .incoming))
    (houtgoing : (direction == .outgoing) = (other == .outgoing)) : direction = other := by
  revert hincoming houtgoing
  cases direction <;> cases other <;> decide

theorem legible_link : Legible Link.Plain (fun _ => True) Link.text id := by
  intro a b ha hb rest others _ _ h
  simp only [Link.text_eq, String.toList_append, List.append_assoc] at h
  have hopening : '<' ∉ ['-'] := by decide
  obtain ⟨hincoming, hlater⟩ := legible_mark '<' hopening
    (fun link : Link => link.direction == .incoming) ha hb a.relationship.line_next
    b.relationship.line_next h
  obtain ⟨hrelationship, hlater⟩ := legible_line ha.relationship hb.relationship trivial trivial
    hlater
  have hclosing : '>' ∉ ['('] := by decide
  obtain ⟨houtgoing, hlater⟩ := legible_mark '>' hclosing
    (fun link : Link => link.direction == .outgoing) ha hb a.node.nodeText_next
    b.node.nodeText_next hlater
  obtain ⟨hnode, hrests⟩ := legible_node ⟨ha.node, ha.node_length⟩ ⟨hb.node, hb.node_length⟩
    trivial trivial hlater
  have hdirection : a.direction = b.direction := Direction.eq_of_tips hincoming houtgoing
  exact ⟨Link.ext hdirection hrelationship hnode, hrests⟩

theorem Link.text_next (link : Link) {rest : List Char} :
    Next ['-', '<'] (link.text.toList ++ rest) := by
  rw [Link.text_eq]
  split
  · simp only [String.toList_append, List.append_assoc]
    exact next_cons.mpr (by decide)
  · simp only [String.toList_append, List.append_assoc, String.toList_empty, List.nil_append]
    exact link.relationship.line_next.mono (by decide)

/-! ## Chains -/

theorem legible_links :
    Legible (fun links : List Link => ∀ link ∈ links, link.Plain) (Ends [','])
      (fun links => concat (links.map Link.text)) id :=
  legible_link.concat fun link _ _ hends => hends.not_next link.text_next (by decide)

theorem Chain.text_eq (chain : Chain) :
    chain.text = chain.path.getD "" ++ (if chain.path.isSome then " = " else "") ++
      chain.start.nodeText ++ concat (chain.links.map Link.text) := by
  unfold Chain.text
  cases chain.path <;> simp [String.append_assoc]

theorem legible_chain : Legible Chain.Plain (Ends [',']) Chain.text id := by
  intro a b ha hb rest others hrest hothers h
  simp only [Chain.text_eq, String.toList_append, List.append_assoc] at h
  have hnext : ∀ (chain : Chain) (rest : List Char), Next [' ', '(']
      ((if chain.path.isSome then " = " else "").toList ++
        (chain.start.nodeText.toList ++ rest)) := by
    intro chain rest
    split
    · exact next_cons.mpr (by decide)
    · exact chain.start.nodeText_next.mono (by decide)
  obtain ⟨hpath, hlater⟩ := legible_name [' ', '('] (by decide) ha.path hb.path (hnext a _)
    (hnext b _) h
  simp only [id_eq] at hpath
  rw [hpath] at hlater
  obtain ⟨hstart, hlater⟩ := legible_node ⟨ha.start, ha.start_length⟩ ⟨hb.start, hb.start_length⟩
    trivial trivial (List.append_cancel_left hlater)
  obtain ⟨hlinks, hrests⟩ := legible_links ha.links hb.links hrest hothers hlater
  exact ⟨Chain.ext hpath hstart hlinks, hrests⟩

/-- Chains are told by their text. -/
theorem chains_eq_of_text_eq {chains others : List Chain} (hne : chains ≠ [])
    (hneOthers : others ≠ []) (hchains : ∀ chain ∈ chains, chain.Plain)
    (hothers : ∀ chain ∈ others, chain.Plain)
    (h : joinWith ", " (chains.map Chain.text) = joinWith ", " (others.map Chain.text)) :
    chains = others := by
  have hlegible : Legible (fun chains : List Chain => chains ≠ [] ∧ ∀ chain ∈ chains, chain.Plain)
      (· = []) (fun chains => joinWith ", " (chains.map Chain.text)) id := by
    refine legible_chain.joined (fun rest => .inr (next_cons.mpr (by decide))) ?_
    rintro rest rfl
    exact ⟨.inl rfl, fun later heq => by cases heq⟩
  obtain ⟨hsame, -⟩ := hlegible ⟨hne, hchains⟩ ⟨hneOthers, hothers⟩ rfl rfl
    (congrArg (String.toList · ++ []) h)
  exact hsame

theorem chains_eq_of_text_eq_walk :
    let known : Element := { label := some "KNOWS", length := some "1..3" }
    let written : Element :=
      { reference := some "a", properties := ⟨[("name", "$name")], by decide⟩ }
    let collected : Element := { reference := some "a", properties := .ofList [("name", "$name")] }
    let chains : List Chain :=
      [{ path := some "p", start := written, links := [⟨.outgoing, known, {}⟩] }, { start := {} }]
    let others : List Chain :=
      [{ path := some "p", start := collected, links := [⟨.outgoing, known, {}⟩] }, { start := {} }]
    chains ≠ [] ∧ others ≠ [] ∧ (∀ chain ∈ chains, chain.Plain) ∧ (∀ chain ∈ others, chain.Plain) ∧
      joinWith ", " (chains.map Chain.text) = "p = (a \x7bname: $name\x7d)-[:KNOWS*1..3]->(), ()" ∧
      joinWith ", " (chains.map Chain.text) = joinWith ", " (others.map Chain.text) ∧
      chains = others := by
  intro known written collected chains others
  have hchains : ∀ chain ∈ chains, chain.Plain := by decide
  have hothers : ∀ chain ∈ others, chain.Plain := by decide
  have htext : joinWith ", " (chains.map Chain.text) = joinWith ", " (others.map Chain.text) := by
    decide
  exact ⟨by simp [chains], by simp [others], hchains, hothers, by decide, htext,
    chains_eq_of_text_eq (by simp [chains]) (by simp [others]) hchains hothers htext⟩

end GraphQuery
