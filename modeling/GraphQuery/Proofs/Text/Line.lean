import Mathlib.Data.List.DropRight
import GraphQuery.Text.Line

/-! # Lines

What stands on one line and stays on it, what is left of a line that is moved, and how lines are
found again in a text that was joined of them. -/

namespace GraphQuery.Text

variable {text : String}

/-! ## Unbroken texts -/

/-- There is no line break in the text. -/
def Unbroken (text : String) : Prop := '\n' ∉ text.toList

instance (text : String) : Decidable (Unbroken text) := inferInstanceAs (Decidable (¬ _))

@[simp] theorem unbroken_append {front back : String} :
    Unbroken (front ++ back) ↔ Unbroken front ∧ Unbroken back := by
  simp [Unbroken]

theorem Unbroken.of_sublist {cs : List Char} (h : Unbroken text) (hcs : cs.Sublist text.toList) :
    Unbroken (String.ofList cs) := by
  rw [Unbroken, String.toList_ofList]
  exact fun hmem => h (hcs.mem hmem)

theorem Unbroken.trimStart (h : Unbroken text) : Unbroken (trimStart text) :=
  h.of_sublist (List.dropWhile_sublist isBlank)

theorem Unbroken.trimEnd (h : Unbroken text) : Unbroken (trimEnd text) :=
  h.of_sublist (List.rdropWhile_prefix isBlank text.toList).sublist

theorem Unbroken.trim (h : Unbroken text) : Unbroken (trim text) :=
  h.trimStart.trimEnd

theorem unbroken_joinWith {separator : String} (hseparator : Unbroken separator)
    {texts : List String} (h : ∀ text ∈ texts, Unbroken text) :
    Unbroken (joinWith separator texts) := by
  induction texts with
  | nil => exact List.not_mem_nil
  | cons text rest ih =>
      obtain ⟨htext, hrest⟩ := List.forall_mem_cons.mp h
      cases rest with
      | nil => exact htext
      | cons next rest =>
          rw [joinWith_cons_cons]
          simp [htext, hseparator, ih hrest]

theorem unbroken_concat {texts : List String} (h : ∀ text ∈ texts, Unbroken text) :
    Unbroken (concat texts) := by
  induction texts with
  | nil => exact List.not_mem_nil
  | cons text rest ih =>
      obtain ⟨htext, hrest⟩ := List.forall_mem_cons.mp h
      rw [concat]
      simp [htext, ih hrest]

theorem not_mem_splitBreaks {cs piece : List Char} (h : piece ∈ splitBreaks cs) :
    '\n' ∉ piece := by
  induction cs generalizing piece with
  | nil =>
      obtain rfl : piece = [] := by simpa [splitBreaks] using h
      exact List.not_mem_nil
  | cons c rest ih =>
      obtain ⟨first, later, hrest⟩ := List.exists_cons_of_ne_nil (splitBreaks_ne_nil rest)
      rw [splitBreaks, hrest] at h
      rw [hrest] at ih
      split at h
      · rcases List.mem_cons.mp h with rfl | hpiece
        · exact List.not_mem_nil
        · exact ih hpiece
      · next hc =>
          rcases List.mem_cons.mp h with rfl | hpiece
          · simpa [Ne.symm hc] using ih List.mem_cons_self
          · exact ih (List.mem_cons_of_mem _ hpiece)

theorem unbroken_of_mem_lines {line : String} (h : line ∈ lines text) : Unbroken line := by
  unfold lines at h
  split at h
  · cases h
  · obtain ⟨piece, hpiece, rfl⟩ := List.mem_map.mp h
    rw [Unbroken, String.toList_ofList]
    exact not_mem_splitBreaks hpiece

/-! ## Trimmed texts -/

theorem dropBlanksEnd_append (front back : List Char) :
    dropBlanksEnd (front ++ back) =
      if dropBlanksEnd back = [] then dropBlanksEnd front else front ++ dropBlanksEnd back := by
  simp only [dropBlanksEnd, List.reverse_append, List.dropWhile_append, List.isEmpty_iff,
    List.reverse_eq_nil_iff]
  split <;> simp

theorem dropBlanksEnd_cons {c : Char} (hc : isBlank c = false) (cs : List Char) :
    dropBlanksEnd (c :: cs) = c :: dropBlanksEnd cs := by
  have hfirst : dropBlanksEnd [c] = [c] := by simp [dropBlanksEnd, hc]
  rw [← List.singleton_append, dropBlanksEnd_append]
  split
  · next hrest => rw [hfirst, hrest]
  · rfl

/-- A line moved one level in. There is nothing to move of an empty one. -/
def indented (line : String) : String := if line = "" then "" else "  " ++ line

theorem trimEnd_indent (text : String) : trimEnd ("  " ++ text) = indented (trimEnd text) := by
  have hblank : dropBlanksEnd "  ".toList = [] := by decide
  rw [indented, trimEnd, trimEnd, String.toList_append, dropBlanksEnd_append, hblank]
  by_cases h : dropBlanksEnd text.toList = []
  · simp [h]
  · have hne : String.ofList (dropBlanksEnd text.toList) ≠ "" := fun hempty =>
      h (by simpa using congrArg String.toList hempty)
    rw [if_neg h, if_neg hne, String.ofList_append, String.ofList_toList]

theorem indented_injective : Function.Injective indented := by
  intro line other h
  have hmoved : ∀ text : String, "  " ++ text ≠ "" := fun text hempty => by
    simpa using congrArg String.toList hempty
  unfold indented at h
  split at h <;> split at h
  · next hline hother => rw [hline, hother]
  · exact absurd h.symm (hmoved other)
  · exact absurd h (hmoved line)
  · exact (String.append_right_inj _).mp h

theorem prefix_trimEnd {front : String} (hfront : trimEnd front = front) (back : String) :
    front.toList <+: (trimEnd (front ++ back)).toList := by
  have hkept : dropBlanksEnd front.toList = front.toList := by
    simpa [trimEnd] using congrArg String.toList hfront
  rw [trimEnd, String.toList_ofList, String.toList_append, dropBlanksEnd_append]
  split
  · exact ⟨[], by rw [List.append_nil, hkept]⟩
  · exact List.prefix_append _ _

theorem trimEnd_getLast? {c : Char} (h : c ∈ (trimEnd text).toList.getLast?) :
    isBlank c = false := by
  rw [trimEnd, String.toList_ofList] at h
  obtain ⟨hne, rfl⟩ := List.mem_getLast?_eq_getLast h
  exact Bool.eq_false_iff.mpr (List.rdropWhile_last_not isBlank text.toList hne)

theorem trim_head? (text : String) : ∀ c ∈ (trim text).toList.head?, isBlank c = false := by
  intro c hc
  have hstart := List.head?_dropWhile_not isBlank text.toList
  rw [trim, trimEnd, trimStart, String.toList_ofList, String.toList_ofList, dropBlanks] at hc
  cases hdrop : text.toList.dropWhile isBlank with
  | nil =>
      rw [hdrop] at hc
      cases hc
  | cons first rest =>
      have hfirst : isBlank first = false := by simpa [hdrop] using hstart
      rw [hdrop, dropBlanksEnd_cons hfirst, List.head?_cons, Option.mem_some_iff] at hc
      rwa [← hc]

/-! ## Joined texts

Whatever follows a text on further lines leaves the lines of the text as they are. -/

theorem splitBreaks_append_break (front back : List Char) :
    splitBreaks (front ++ '\n' :: back) = splitBreaks front ++ splitBreaks back := by
  induction front with
  | nil => simp [splitBreaks]
  | cons c rest ih =>
      obtain ⟨piece, pieces, hrest⟩ := List.exists_cons_of_ne_nil (splitBreaks_ne_nil rest)
      rw [List.cons_append, splitBreaks, splitBreaks, ih, hrest]
      split <;> rfl

theorem lines_prefix_append_break (text rest : String) :
    lines text <+: lines (text ++ "\n" ++ rest) := by
  unfold lines
  have hbroken : text ++ "\n" ++ rest ≠ "" := by
    intro h
    simpa using congrArg String.toList h
  rw [if_neg hbroken]
  split
  · exact List.nil_prefix
  · have hsplit : splitBreaks (text ++ "\n" ++ rest).toList =
        splitBreaks text.toList ++ splitBreaks rest.toList := by
      simpa using splitBreaks_append_break text.toList rest.toList
    rw [hsplit, List.map_append]
    exact List.prefix_append _ _

/-- The first of some lines, and each later one behind a break. -/
theorem toList_joinWith (text : String) (rest : List String) :
    (joinWith "\n" (text :: rest)).toList =
      text.toList ++ rest.flatMap fun line => '\n' :: line.toList := by
  induction rest generalizing text with
  | nil => simp
  | cons next rest ih => simp [joinWith_cons_cons, ih]

/-- Joined with more lines after them, texts keep the lines they have joined alone. -/
theorem lines_joinWith_prefix (texts others : List String) :
    lines (joinWith "\n" texts) <+: lines (joinWith "\n" (texts ++ others)) := by
  by_cases htexts : texts = []
  · subst htexts
    exact List.nil_prefix
  · by_cases hothers : others = []
    · simp [hothers]
    · rw [joinWith_append "\n" texts others htexts hothers]
      exact lines_prefix_append_break _ _

theorem splitBreaks_of_not_mem {cs : List Char} (h : '\n' ∉ cs) : splitBreaks cs = [cs] := by
  induction cs with
  | nil => rfl
  | cons c rest ih =>
      rw [List.mem_cons, not_or] at h
      rw [splitBreaks, if_neg (Ne.symm h.1), ih h.2]

theorem splitBreaks_joinWith {texts : List String} (hne : texts ≠ [])
    (hunbroken : ∀ text ∈ texts, Unbroken text) :
    splitBreaks (joinWith "\n" texts).toList = texts.map String.toList := by
  induction texts with
  | nil => exact absurd rfl hne
  | cons text rest ih =>
      obtain ⟨htext, hrest⟩ := List.forall_mem_cons.mp hunbroken
      have hfirst := splitBreaks_of_not_mem htext
      cases rest with
      | nil => exact hfirst
      | cons next rest =>
          have hbreak : (joinWith "\n" (text :: next :: rest)).toList =
              text.toList ++ '\n' :: (joinWith "\n" (next :: rest)).toList := by
            simp [joinWith_cons_cons]
          rw [hbreak, splitBreaks_append_break, hfirst, ih (List.cons_ne_nil _ _) hrest]
          rfl

/-- Lines that were joined are found again, but for a single empty one. -/
theorem lines_joinWith {texts : List String} (hunbroken : ∀ text ∈ texts, Unbroken text)
    (hsome : texts ≠ [""]) : lines (joinWith "\n" texts) = texts := by
  by_cases hne : texts = []
  · rw [hne]
    rfl
  · have hsplit := splitBreaks_joinWith hne hunbroken
    have hfilled : joinWith "\n" texts ≠ "" := by
      intro hempty
      rw [hempty] at hsplit
      obtain ⟨text, htexts, htext⟩ := List.map_eq_singleton_iff.mp hsplit.symm
      exact hsome (by rw [htexts, String.toList_eq_nil_iff.mp htext])
    rw [lines, if_neg hfilled, hsplit, List.map_map]
    simp

end GraphQuery.Text
