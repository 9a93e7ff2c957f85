import GraphQuery.Text.Character
import GraphQuery.Text.Line

/-! # Legible texts

What was written can be told from the text, wherever it stands: two texts that go on with what may
stand behind them begin alike only if the same was written. Texts put together of legible ones are
legible again. -/

namespace GraphQuery.Text

/-- Decided from the list. There are instances that go through all characters. -/
instance decidableForallMemChar (cs : List Char) (p : Char → Prop) [DecidablePred p] :
    Decidable (∀ c ∈ cs, p c) :=
  List.decidableBAll p cs

/-! ## What stands behind -/

/-- The text goes on with one of the characters. -/
def Next (cs rest : List Char) : Prop := ∃ c ∈ cs, ∃ later, rest = c :: later

/-- The text ends here, or goes on with one of the characters. -/
def Ends (cs rest : List Char) : Prop := rest = [] ∨ Next cs rest

theorem Next.mono {cs ds rest : List Char} (h : Next cs rest) (hsub : cs ⊆ ds) : Next ds rest := by
  obtain ⟨c, hc, later, rfl⟩ := h
  exact ⟨c, hsub hc, later, rfl⟩

theorem next_cons {cs : List Char} {c : Char} {rest : List Char} :
    Next cs (c :: rest) ↔ c ∈ cs := by
  refine ⟨fun ⟨d, hd, later, heq⟩ => ?_, fun hc => ⟨c, hc, rest, rfl⟩⟩
  obtain ⟨rfl, -⟩ := List.cons.inj heq
  exact hd

theorem Next.disjoint {cs ds rest : List Char} (h : Next cs rest) (hother : Next ds rest)
    (hdisjoint : ∀ c ∈ cs, c ∉ ds) : False := by
  obtain ⟨c, hc, later, rfl⟩ := h
  exact hdisjoint c hc (next_cons.mp hother)

theorem Ends.not_next {cs ds rest : List Char} (h : Ends cs rest) (hother : Next ds rest)
    (hdisjoint : ∀ c ∈ cs, c ∉ ds) : False := by
  rcases h with rfl | hnext
  · obtain ⟨c, -, later, heq⟩ := hother
    cases heq
  · exact hnext.disjoint hother hdisjoint

/-! ## Legible writing -/

variable {α β γ : Type}

/-- Of what is written with such a text, this can be read. -/
def Legible (Valid : α → Prop) (Behind : List Char → Prop) (write : α → String) (read : α → β) :
    Prop :=
  ∀ ⦃a b : α⦄, Valid a → Valid b → ∀ ⦃rest others : List Char⦄, Behind rest → Behind others →
    (write a).toList ++ rest = (write b).toList ++ others → read a = read b ∧ rest = others

/-- A word ends where a character follows that cannot stand in it. -/
theorem legible_word {p : Char → Bool} {Valid : α → Prop} {cs : List Char} {write : α → String}
    (hword : ∀ a, Valid a → ∀ c ∈ (write a).toList, p c = true) (hcs : ∀ c ∈ cs, p c = false) :
    Legible Valid (Next cs) write write := by
  have htake : ∀ a, Valid a → ∀ rest, Next cs rest →
      ((write a).toList ++ rest).takeWhile p = (write a).toList := by
    rintro a ha - ⟨c, hc, later, rfl⟩
    rw [List.takeWhile_append_of_pos (hword a ha), List.takeWhile_cons_of_neg (by simp [hcs c hc]),
      List.append_nil]
  intro a b ha hb rest others hrest hothers h
  have hwords : (write a).toList = (write b).toList := by
    rw [← htake a ha rest hrest, h, htake b hb others hothers]
  rw [hwords] at h
  exact ⟨String.toList_inj.mp hwords, List.append_cancel_left h⟩

/-- A mark that stands there or not. -/
theorem legible_mark {Valid : α → Prop} {cs : List Char} (mark : Char) (hcs : mark ∉ cs)
    (given : α → Bool) :
    Legible Valid (Next cs) (fun a => if given a then String.singleton mark else "") given := by
  intro a b _ _ rest others hrest hothers h
  cases ha : given a <;> cases hb : given b <;>
    simp only [ha, hb, ite_true, ite_false, Bool.false_eq_true, String.toList_singleton,
      String.toList_empty, List.nil_append, List.singleton_append] at h
  · exact ⟨rfl, h⟩
  · exact absurd (next_cons.mp (h ▸ hrest)) hcs
  · exact absurd (next_cons.mp (h ▸ hothers)) hcs
  · exact ⟨rfl, List.tail_eq_of_cons_eq h⟩

/-- The text, where there is one, behind a mark. -/
def marked (mark : Char) : Option String → String
  | none => ""
  | some text => String.singleton mark ++ text

theorem Next.marked {cs rest : List Char} (h : Next cs rest) (mark : Char)
    (text? : Option String) : Next (mark :: cs) ((marked mark text?).toList ++ rest) := by
  cases text? with
  | none => exact h.mono (List.subset_cons_self mark cs)
  | some text =>
      rw [Text.marked, String.toList_append, String.toList_singleton]
      exact next_cons.mpr List.mem_cons_self

theorem legible_marked {p : Char → Bool} {cs : List Char} {mark : Char}
    (hcs : ∀ c ∈ cs, p c = false) (hmark : mark ∉ cs) :
    Legible (fun text? : Option String => ∀ text ∈ text?, ∀ c ∈ text.toList, p c = true)
      (Next cs) (marked mark) id := by
  intro a b ha hb rest others hrest hothers h
  rcases a with _ | text <;> rcases b with _ | other <;>
    simp only [marked, String.toList_append, String.toList_singleton, String.toList_empty,
      List.nil_append, List.cons_append] at h
  · exact ⟨rfl, h⟩
  · exact absurd (next_cons.mp (h ▸ hrest)) hmark
  · exact absurd (next_cons.mp (h ▸ hothers)) hmark
  · have hword : Legible (fun text : String => ∀ c ∈ text.toList, p c = true) (Next cs) id id :=
      legible_word (fun _ htext => htext) hcs
    obtain ⟨htexts, hrests⟩ := hword (ha text rfl) (hb other rfl) hrest hothers
      (List.tail_eq_of_cons_eq h)
    exact ⟨congrArg some htexts, hrests⟩

variable {Valid : α → Prop} {Behind Closed : List Char → Prop} {write : α → String}

/-- Items of which each begins as nothing does that stands behind them all. -/
theorem Legible.concat (h : Legible Valid (fun _ => True) write id)
    (hbegin : ∀ item, Valid item → ∀ rest, ¬ Closed ((write item).toList ++ rest)) :
    Legible (fun items : List α => ∀ item ∈ items, Valid item) Closed
      (fun items => concat (items.map write)) id := by
  intro items
  induction items with
  | nil =>
      intro others _ hothers rest later hrest hlater heq
      cases others with
      | nil => exact ⟨rfl, heq⟩
      | cons other others =>
          obtain ⟨hother, -⟩ := List.forall_mem_cons.mp hothers
          simp only [List.map_nil, List.map_cons, Text.concat, String.toList_append,
            List.append_assoc, String.toList_empty, List.nil_append] at heq
          exact absurd (heq ▸ hrest) (hbegin other hother _)
  | cons item items ih =>
      intro others hitems hothers rest later hrest hlater heq
      obtain ⟨hitem, hitems⟩ := List.forall_mem_cons.mp hitems
      cases others with
      | nil =>
          simp only [List.map_nil, List.map_cons, Text.concat, String.toList_append,
            List.append_assoc, String.toList_empty, List.nil_append] at heq
          exact absurd (heq ▸ hlater) (hbegin item hitem _)
      | cons other others =>
          obtain ⟨hother, hothers⟩ := List.forall_mem_cons.mp hothers
          simp only [List.map_cons, Text.concat, String.toList_append, List.append_assoc] at heq
          obtain ⟨hfirst, heq⟩ := h hitem hother trivial trivial heq
          obtain ⟨hlists, hrests⟩ := ih hitems hothers hrest hlater heq
          exact ⟨List.cons_eq_cons.mpr ⟨hfirst, hlists⟩, hrests⟩

/-- Items with a separator between them, which does not stand behind them all. -/
theorem Legible.joined {separator : String} (h : Legible Valid Behind write id)
    (hseparator : ∀ rest, Behind (separator.toList ++ rest))
    (hclosed : ∀ rest, Closed rest → Behind rest ∧ ∀ later, rest ≠ separator.toList ++ later) :
    Legible (fun items : List α => items ≠ [] ∧ ∀ item ∈ items, Valid item) Closed
      (fun items => joinWith separator (items.map write)) id := by
  rintro items others ⟨hne, hitems⟩ ⟨hneOthers, hothers⟩
  induction items generalizing others with
  | nil => exact absurd rfl hne
  | cons item items ih =>
      obtain ⟨other, others, rfl⟩ := List.exists_cons_of_ne_nil hneOthers
      obtain ⟨hitem, hitems⟩ := List.forall_mem_cons.mp hitems
      obtain ⟨hother, hothers⟩ := List.forall_mem_cons.mp hothers
      intro rest later hrest hlater heq
      obtain ⟨hbehind, hlast⟩ := hclosed rest hrest
      obtain ⟨hbehindLater, hlastLater⟩ := hclosed later hlater
      cases items with
      | nil =>
          cases others with
          | nil =>
              obtain ⟨rfl, hrests⟩ := h hitem hother hbehind hbehindLater heq
              exact ⟨rfl, hrests⟩
          | cons next others =>
              simp only [List.map_cons, List.map_nil, joinWith_singleton, joinWith_cons_cons,
                String.toList_append, List.append_assoc] at heq
              obtain ⟨-, hrests⟩ := h hitem hother hbehind (hseparator _) heq
              exact absurd hrests (hlast _)
      | cons following items =>
          cases others with
          | nil =>
              simp only [List.map_cons, List.map_nil, joinWith_singleton, joinWith_cons_cons,
                String.toList_append, List.append_assoc] at heq
              obtain ⟨-, hrests⟩ := h hitem hother (hseparator _) hbehindLater heq
              exact absurd hrests.symm (hlastLater _)
          | cons next others =>
              simp only [List.map_cons, joinWith_cons_cons, String.toList_append,
                List.append_assoc] at heq
              obtain ⟨hfirst, heq⟩ := h hitem hother (hseparator _) (hseparator _) heq
              obtain ⟨hlists, hrests⟩ := ih (List.cons_ne_nil _ _) hitems (List.cons_ne_nil _ _)
                hothers hrest hlater (List.append_cancel_left heq)
              exact ⟨List.cons_eq_cons.mpr ⟨hfirst, hlists⟩, hrests⟩

end GraphQuery.Text
