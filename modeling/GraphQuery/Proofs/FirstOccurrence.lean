import Mathlib.Data.List.Induction

/-! # First occurrences

A list with each element where it comes first and nowhere else. It makes no difference whether
parts of a list are stripped of their repetitions before the whole is. -/

namespace GraphQuery

variable {α β : Type} [BEq α] [LawfulBEq α]

theorem eraseDups_concat (list : List α) (last : α) :
    (list ++ [last]).eraseDups =
      if last ∈ list then list.eraseDups else list.eraseDups ++ [last] := by
  rw [List.eraseDups_append, List.cons_removeAll]
  by_cases h : last ∈ list <;> simp [h, List.eraseDups_cons]

theorem nodup_eraseDups (list : List α) : list.eraseDups.Nodup := by
  induction list using List.reverseRecOn with
  | nil => exact List.nodup_nil
  | append_singleton rest last ih =>
      rw [eraseDups_concat]
      by_cases h : last ∈ rest
      · rwa [if_pos h]
      · rw [if_neg h, List.nodup_append]
        refine ⟨ih, List.pairwise_singleton _ _, ?_⟩
        intro item hitem other hother heq
        rw [List.mem_singleton.mp hother] at heq
        exact h (heq ▸ List.mem_eraseDups.mp hitem)

/-- What is looked for is found where it comes first. -/
theorem find?_eraseDups (p : α → Bool) (list : List α) :
    list.eraseDups.find? p = list.find? p := by
  induction list using List.reverseRecOn with
  | nil => rfl
  | append_singleton rest last ih =>
      rw [eraseDups_concat, List.find?_append]
      by_cases h : last ∈ rest
      · rw [if_pos h, ih]
        cases hfind : rest.find? p with
        | some item => rfl
        | none =>
            have hlast : p last = false := by simpa using List.find?_eq_none.mp hfind last h
            simp [hlast]
      · rw [if_neg h, List.find?_append, ih]

theorem eraseDups_append_eraseDups (list others : List α) :
    (list ++ others.eraseDups).eraseDups = (list ++ others).eraseDups := by
  induction others using List.reverseRecOn with
  | nil => rfl
  | append_singleton rest last ih =>
      rw [← List.append_assoc, eraseDups_concat, eraseDups_concat, ← ih]
      by_cases hrest : last ∈ rest
      · simp [hrest]
      · rw [if_neg hrest, ← List.append_assoc, eraseDups_concat]
        simp only [List.mem_append, List.mem_eraseDups]

theorem eraseDups_eraseDups_append (list others : List α) :
    (list.eraseDups ++ others).eraseDups = (list ++ others).eraseDups := by
  induction others using List.reverseRecOn with
  | nil => simpa using eraseDups_append_eraseDups [] list
  | append_singleton rest last ih =>
      rw [← List.append_assoc, ← List.append_assoc, eraseDups_concat, eraseDups_concat, ih]
      simp only [List.mem_append, List.mem_eraseDups]

theorem eraseDups_flatMap_eraseDups (parts : β → List α) (list : List β) :
    (list.flatMap fun item => (parts item).eraseDups).eraseDups =
      (list.flatMap parts).eraseDups := by
  induction list with
  | nil => rfl
  | cons first rest ih =>
      rw [List.flatMap_cons, List.flatMap_cons, eraseDups_eraseDups_append,
        ← eraseDups_append_eraseDups, ih, eraseDups_append_eraseDups]

end GraphQuery
