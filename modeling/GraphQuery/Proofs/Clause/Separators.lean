import GraphQuery.Proofs.Clause.Layout
import GraphQuery.Proofs.Draft.Everywhere

/-! # Separators

A union prints its branches at its own depth, with a line for its mode between neighbours. No other
clause has such a line at its depth, unless it is query text. -/

namespace GraphQuery

open Text

/-! ## Separators -/

/-- The line parts two branches of a union at the depth. -/
def isSeparator (depth : Nat) (line : String) : Bool :=
  line = lineAt depth Keyword.union.text || line = lineAt depth Keyword.unionAll.text

theorem isSeparator_indented (depth : Nat) (line : String) :
    isSeparator (depth + 1) (indented line) = isSeparator depth line := by
  simp [isSeparator, lineAt_succ, indented_injective.eq_iff]

theorem isSeparator_mode (depth : Nat) (mode : UnionMode) :
    isSeparator depth (lineAt depth mode.keyword.text) = true := by
  cases mode <;> simp [isSeparator, UnionMode.keyword]

def Keyword.isUnion : Keyword → Bool
  | .union | .unionAll => true
  | _ => false

theorem Keyword.trimEnd_text (keyword : Keyword) : trimEnd keyword.text = keyword.text := by
  cases keyword <;> decide

theorem Keyword.lineAt_text (keyword : Keyword) : lineAt 0 keyword.text = keyword.text := by
  simp [lineAt, keyword.trimEnd_text]

theorem Keyword.prefix_lineAt (keyword : Keyword) (text : String) :
    keyword.text.toList <+: (lineAt 0 (keyword.text ++ text)).toList := by
  have hline : lineAt 0 (keyword.text ++ text) = trimEnd (keyword.text ++ text) := by simp [lineAt]
  rw [hline]
  exact prefix_trimEnd keyword.trimEnd_text text

theorem Keyword.isSeparator_lineAt {keyword : Keyword} (h : keyword.isUnion = false)
    (text : String) : isSeparator 0 (lineAt 0 (keyword.text ++ text)) = false := by
  have hprefix := keyword.prefix_lineAt text
  have hapart : keyword.isUnion = false →
      ¬ keyword.text.toList <+: Keyword.union.text.toList ∧
        ¬ keyword.text.toList <+: Keyword.unionAll.text.toList := by
    cases keyword <;> decide
  obtain ⟨hunion, hunionAll⟩ := hapart h
  rw [isSeparator, Keyword.lineAt_text, Keyword.lineAt_text, Bool.or_eq_false_iff,
    decide_eq_false_iff_not, decide_eq_false_iff_not]
  exact ⟨fun heq => hunion (heq ▸ hprefix), fun heq => hunionAll (heq ▸ hprefix)⟩

/-! ## Clauses other than unions -/

/-- Lines that begin with a keyword of no union, go on further in and may end in a brace. -/
inductive Opened : List String → Prop
  | spread (keyword : Keyword) (hkeyword : keyword.isUnion = false) (text : String)
      (inside : List String) :
      Opened (lineAt 0 (keyword.text ++ text) :: inside.map indented)
  | braced (keyword : Keyword) (hkeyword : keyword.isUnion = false) (text : String)
      (inside : List String) :
      Opened (lineAt 0 (keyword.text ++ text) :: (inside.map indented ++ [lineAt 0 "\x7d"]))

theorem Opened.headed (keyword : Keyword) (hkeyword : keyword.isUnion = false) (text : String) :
    Opened [lineAt 0 (keyword.text ++ " " ++ text)] := by
  rw [String.append_assoc]
  exact .spread keyword hkeyword (" " ++ text) []

theorem Opened.itemBlock (keyword : Keyword) (hkeyword : keyword.isUnion = false)
    (items : List String) : Opened (itemBlock 0 keyword items) := by
  unfold GraphQuery.itemBlock
  split
  · exact .headed keyword hkeyword _
  · have hopened := Opened.spread keyword hkeyword "" (itemLines 0 items)
    rwa [String.append_empty, ← itemLines_succ] at hopened

theorem isSeparator_zero_indented (line : String) : isSeparator 0 (indented line) = false := by
  have hmoved : (indented line).toList.head? = none ∨ (indented line).toList.head? = some ' ' := by
    unfold indented
    split <;> simp
  have hhead : ∀ keyword : Keyword, keyword.text.toList.head? ≠ none ∧
      keyword.text.toList.head? ≠ some ' ' := by
    intro keyword
    cases keyword <;> decide
  have hdeeper : ∀ keyword : Keyword, indented line ≠ lineAt 0 keyword.text := by
    intro keyword heq
    rw [heq, keyword.lineAt_text] at hmoved
    exact hmoved.elim (hhead keyword).1 (hhead keyword).2
  rw [isSeparator, Bool.or_eq_false_iff, decide_eq_false_iff_not, decide_eq_false_iff_not]
  exact ⟨hdeeper _, hdeeper _⟩

theorem Opened.not_separator {lines : List String} (h : Opened lines) :
    ∀ line ∈ lines, isSeparator 0 line = false := by
  have hinside : ∀ inside : List String, ∀ line ∈ inside.map indented,
      isSeparator 0 line = false := fun inside =>
    List.forall_mem_map.mpr fun line _ => isSeparator_zero_indented line
  cases h with
  | spread keyword hkeyword text inside =>
      exact List.forall_mem_cons.mpr ⟨Keyword.isSeparator_lineAt hkeyword text, hinside inside⟩
  | braced keyword hkeyword text inside =>
      refine List.forall_mem_cons.mpr ⟨Keyword.isSeparator_lineAt hkeyword text, ?_⟩
      exact List.forall_mem_append.mpr
        ⟨hinside inside, List.forall_mem_singleton.mpr (by decide)⟩

theorem Opened.ne_singleton_empty {lines : List String} (h : Opened lines) : lines ≠ [""] := by
  have hfirst : ∀ (keyword : Keyword) (text : String), lineAt 0 (keyword.text ++ text) ≠ "" := by
    intro keyword text hempty
    have hprefix := keyword.prefix_lineAt text
    rw [hempty] at hprefix
    have hkeyword : keyword.text = "" := String.toList_eq_nil_iff.mp (List.prefix_nil.mp hprefix)
    revert hkeyword
    cases keyword <;> decide
  cases h with
  | spread | braced => exact fun heq => hfirst _ _ (List.cons.inj heq).1

theorem Clause.opened : ∀ clause : Clause, clause.keyword.isUnion = false →
    clause.keyword ≠ .rawText → Opened (clause.lines 0)
  | .use _, h, _ | .merge _, h, _ | .condition _, h, _ | .orderBy _, h, _ | .skip _, h, _
  | .limit _, h, _ | .call _, h, _ | .showCommand _, h, _ | .yielding _, h, _
  | .pattern _ _, h, _ | .project _ _ _, h, _ => .headed _ h _
  | .unwind list item, h, _ => by
      have hopened := Opened.spread .unwind rfl (" " ++ list ++ " AS " ++ item) []
      simpa [Clause.lines, String.append_assoc] using hopened
  | .forEach item list updates, h, _ => by
      have hopened := Opened.spread .forEach rfl (" (" ++ item ++ " IN " ++ list ++ " | " ++
        Text.joinWith " " (Clause.inlineAll updates) ++ ")") []
      simpa [Clause.lines, String.append_assoc] using hopened
  | .onMerge outcome items, h, _ => by
      have hopened := Opened.spread outcome.keyword h ""
        (itemBlock 0 .set (items.map Assignment.text))
      rwa [String.append_empty, ← itemBlock_succ] at hopened
  | .update (.set items), h, _ => .itemBlock .set rfl _
  | .update (.remove items), h, _ => .headed .remove rfl _
  | .update (.delete true targets), h, _ => .headed .detachDelete rfl _
  | .update (.delete false targets), h, _ => .headed .delete rfl _
  | .subquery body, _, _ => by
      have hopened := Opened.braced .call rfl " \x7b" (Clause.linesAll 0 body)
      rwa [← Clause.linesAll_succ] at hopened
  | .union mode _, h, _ => by cases mode <;> cases h
  | .rawText _, _, h => absurd rfl h

/-- No line of such a clause is taken for a separator at the clause's own depth. -/
theorem Clause.not_separator (depth : Nat) {clause : Clause}
    (hunion : clause.keyword.isUnion = false) (hraw : clause.keyword ≠ .rawText) :
    ∀ line ∈ clause.lines depth, isSeparator depth line = false := by
  induction depth with
  | zero => exact (clause.opened hunion hraw).not_separator
  | succ depth ih =>
      rw [Clause.lines_succ]
      exact List.forall_mem_map.mpr fun line hline =>
        (isSeparator_indented depth line).trans (ih line hline)

/-! ## Separators of clauses -/

namespace Clause

mutual

/-- The modes of the separators that a clause prints at its own depth, in their order. -/
def separators : Clause → List UnionMode
  | .union mode branches => separatorsBetween mode branches
  | _ => []

def separatorsAll : List Clause → List UnionMode
  | [] => []
  | clause :: rest => clause.separators ++ separatorsAll rest

def separatorsBetween (mode : UnionMode) : List (List Clause) → List UnionMode
  | [] => []
  | [branch] => separatorsAll branch
  | branch :: next :: rest =>
      separatorsAll branch ++ mode :: separatorsBetween mode (next :: rest)

end

/-- None of the clauses is query text, in whatever block. -/
def NoRaw (clauses : List Clause) : Prop :=
  Everywhere bodies (fun clause => clause.keyword ≠ .rawText) clauses

variable {clauses : List Clause} {clause : Clause} {mode : UnionMode}
  {branches : List (List Clause)}

theorem exists_union (h : clause.keyword.isUnion = true) :
    ∃ mode branches, clause = .union mode branches := by
  cases clause with
  | union mode branches => exact ⟨mode, branches, rfl⟩
  | pattern verb chains => cases verb <;> cases h
  | onMerge outcome items => cases outcome <;> cases h
  | project verb distinct columns => cases verb <;> cases h
  | update change =>
      cases change with
      | delete detach targets => cases detach <;> cases h
      | _ => cases h
  | _ => cases h

theorem separators_eq_nil (h : clause.keyword.isUnion = false) : clause.separators = [] := by
  cases clause with
  | union mode branches => cases mode <;> cases h
  | _ => rfl

theorem mem_separatorsAll :
    mode ∈ separatorsAll clauses ↔ ∃ clause ∈ clauses, mode ∈ clause.separators := by
  induction clauses with
  | nil =>
      rw [separatorsAll]
      exact ⟨nofun, nofun⟩
  | cons clause rest ih => simp [separatorsAll, ih]

/-- A separator between branches is of the union itself, if it has several, or of a branch. -/
theorem mem_separatorsBetween {own : UnionMode} (h : mode ∈ separatorsBetween own branches) :
    mode = own ∧ 2 ≤ branches.length ∨ ∃ branch ∈ branches, mode ∈ separatorsAll branch := by
  induction branches with
  | nil => cases h
  | cons branch rest ih =>
      cases rest with
      | nil => exact .inr ⟨branch, .head _, h⟩
      | cons next rest =>
          rw [separatorsBetween, List.mem_append, List.mem_cons] at h
          rcases h with hbranch | rfl | hlater
          · exact .inr ⟨branch, .head _, hbranch⟩
          · exact .inl ⟨rfl, by simp⟩
          · obtain ⟨hown, -⟩ | ⟨inside, hinside, hmode⟩ := ih hlater
            · exact .inl ⟨hown, by simp⟩
            · exact .inr ⟨inside, .tail _ hinside, hmode⟩

/-! ## Separators among lines -/

/-- The lines of the clause that are taken for separators are those that it prints. -/
def Shows (depth : Nat) (clause : Clause) : Prop :=
  NoRaw [clause] →
    (clause.lines depth).filter (isSeparator depth) =
      clause.separators.map fun mode => lineAt depth mode.keyword.text

variable {depth : Nat}

theorem filter_linesAll_of_shows (hclauses : ∀ clause ∈ clauses, Shows depth clause)
    (h : NoRaw clauses) :
    (linesAll depth clauses).filter (isSeparator depth) =
      (separatorsAll clauses).map fun mode => lineAt depth mode.keyword.text := by
  induction clauses with
  | nil => rfl
  | cons clause rest ih =>
      obtain ⟨hclause, hrest⟩ := List.forall_mem_cons.mp hclauses
      have hparts : NoRaw ([clause] ++ rest) := h
      obtain ⟨hhead, htail⟩ := everywhere_append.mp hparts
      rw [linesAll, List.filter_append, hclause hhead, ih hrest htail, separatorsAll,
        List.map_append]

theorem filter_branchLines_of_shows (mode : UnionMode)
    (hbranches : ∀ branch ∈ branches, ∀ clause ∈ branch, Shows depth clause)
    (h : ∀ branch ∈ branches, NoRaw branch) :
    (branchLines depth mode branches).filter (isSeparator depth) =
      (separatorsBetween mode branches).map fun mode => lineAt depth mode.keyword.text := by
  induction branches with
  | nil => rfl
  | cons branch rest ih =>
      obtain ⟨hbranch, hrest⟩ := List.forall_mem_cons.mp hbranches
      obtain ⟨hhead, htail⟩ := List.forall_mem_cons.mp h
      have hfirst := filter_linesAll_of_shows hbranch hhead
      cases rest with
      | nil => exact hfirst
      | cons next rest =>
          rw [branchLines, List.filter_append, hfirst,
            List.filter_cons_of_pos (isSeparator_mode depth mode), ih hrest htail,
            separatorsBetween, List.map_append, List.map_cons]

theorem shows (depth : Nat) (clause : Clause) : Shows depth clause := by
  induction clause using Clause.induction with
  | h clause ih =>
      intro h
      obtain ⟨hraw, hbodies⟩ := everywhere_singleton.mp h
      cases hunion : clause.keyword.isUnion with
      | false =>
          rw [separators_eq_nil hunion, List.map_nil, List.filter_eq_nil_iff]
          exact fun line hline => Bool.eq_false_iff.mp (not_separator depth hunion hraw line hline)
      | true =>
          obtain ⟨mode, branches, rfl⟩ := exists_union hunion
          exact filter_branchLines_of_shows mode ih hbodies

theorem filter_linesAll (depth : Nat) (h : NoRaw clauses) :
    (linesAll depth clauses).filter (isSeparator depth) =
      (separatorsAll clauses).map fun mode => lineAt depth mode.keyword.text :=
  filter_linesAll_of_shows (fun clause _ => shows depth clause) h

/-! ## Lines of a text -/

theorem linesAll_ne_singleton_empty (h : ∀ clause ∈ clauses, clause.lines 0 ≠ [""]) :
    linesAll 0 clauses ≠ [""] := by
  induction clauses with
  | nil => exact nofun
  | cons clause rest ih =>
      obtain ⟨hclause, hrest⟩ := List.forall_mem_cons.mp h
      intro hlines
      rw [linesAll, List.append_eq_singleton_iff] at hlines
      exact hlines.elim (fun hlines => ih hrest hlines.2) fun hlines => hclause hlines.1

theorem branchLines_ne_singleton_empty (mode : UnionMode)
    (h : ∀ branch ∈ branches, linesAll 0 branch ≠ [""]) : branchLines 0 mode branches ≠ [""] := by
  match branches with
  | [] => exact nofun
  | [branch] => exact h branch (.head _)
  | branch :: next :: rest =>
      intro hlines
      have hmem : lineAt 0 mode.keyword.text ∈ branchLines 0 mode (branch :: next :: rest) :=
        List.mem_append_right _ (.head _)
      rw [hlines, List.mem_singleton] at hmem
      revert hmem
      cases mode <;> decide

theorem lines_ne_singleton_empty (clause : Clause) (h : NoRaw [clause]) :
    clause.lines 0 ≠ [""] := by
  induction clause using Clause.induction with
  | h clause ih =>
      obtain ⟨hraw, hbodies⟩ := everywhere_singleton.mp h
      cases hunion : clause.keyword.isUnion with
      | false => exact (clause.opened hunion hraw).ne_singleton_empty
      | true =>
          obtain ⟨mode, branches, rfl⟩ := exists_union hunion
          refine branchLines_ne_singleton_empty mode fun branch hbranch =>
            linesAll_ne_singleton_empty fun inside hinside => ih branch hbranch inside hinside ?_
          exact everywhere_singleton.mpr (everywhere_iff.mp (hbodies branch hbranch) inside hinside)

/-- The lines of clauses are found again in their text. -/
theorem lines_textAll (hraw : NoRaw clauses)
    (htexts : ∀ text ∈ textsOfAll clauses, Unbroken text) :
    Text.lines (textAll 0 clauses) = linesAll 0 clauses :=
  lines_joinWith (fun line hline => (isLine_linesAll 0 clauses htexts line hline).unbroken) <|
    linesAll_ne_singleton_empty fun clause hclause => lines_ne_singleton_empty clause <|
      everywhere_singleton.mpr (everywhere_iff.mp hraw clause hclause)

end Clause

end GraphQuery
