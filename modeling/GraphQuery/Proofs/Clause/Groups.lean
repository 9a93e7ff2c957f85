import GraphQuery.Proofs.Clause.Separators

/-! # Groups

What the separators of a block tell apart. Where each union that prints any stands alone in its
sequence, the lines between them are those of a branch. Nothing else marks where a union begins and
ends. -/

namespace GraphQuery

namespace Clause

/-! ## Blocks -/

/-- The sequences that are written at the depth of a block: itself, and the branches of all unions
in these. -/
inductive AtLevel (block : List Clause) : List Clause → Prop
  | block : AtLevel block block
  | branch {sequence branch : List Clause} {mode : UnionMode} {branches : List (List Clause)}
      (hsequence : AtLevel block sequence) (hunion : .union mode branches ∈ sequence)
      (hbranch : branch ∈ branches) : AtLevel block branch

/-- The sequence is a branch of a union at the depth of the block. -/
def BranchOf (block sequence : List Clause) : Prop :=
  ∃ around mode branches, AtLevel block around ∧ Clause.union mode branches ∈ around ∧
    sequence ∈ branches

/-- The blocks of a query by their depth: the whole, and the bodies of subqueries. -/
inductive Block (whole : List Clause) : Nat → List Clause → Prop
  | whole : Block whole 0 whole
  | body {depth : Nat} {block sequence body : List Clause} (hblock : Block whole depth block)
      (hsequence : AtLevel block sequence) (hsubquery : .subquery body ∈ sequence) :
      Block whole (depth + 1) body

variable {whole block sequence inside : List Clause} {depth : Nat}

theorem AtLevel.trans (hsequence : AtLevel block sequence) (hinside : AtLevel sequence inside) :
    AtLevel block inside := by
  induction hinside with
  | block => exact hsequence
  | branch _ hunion hbranch ih => exact .branch ih hunion hbranch

/-- All sequences at the depth of a block are found by going from each to the branches in it. -/
theorem AtLevel.mem {found : List (List Clause)} (hblock : block ∈ found)
    (hclosed : ∀ sequence ∈ found, ∀ mode branches, .union mode branches ∈ sequence →
      ∀ branch ∈ branches, branch ∈ found) (h : AtLevel block sequence) : sequence ∈ found := by
  induction h with
  | block => exact hblock
  | branch _ hunion hbranch ih => exact hclosed _ ih _ _ hunion _ hbranch

theorem noRaw_body {clause : Clause} {body : List Clause} (h : NoRaw sequence)
    (hclause : clause ∈ sequence) (hbody : body ∈ clause.bodies) : NoRaw body :=
  (everywhere_iff.mp h clause hclause).2 body hbody

theorem noRaw_atLevel (h : NoRaw block) (hsequence : AtLevel block sequence) : NoRaw sequence := by
  induction hsequence with
  | block => exact h
  | branch _ hunion hbranch ih => exact noRaw_body ih hunion hbranch

theorem noRaw_block (h : NoRaw whole) (hblock : Block whole depth block) : NoRaw block := by
  induction hblock with
  | whole => exact h
  | body _ hsequence hsubquery ih =>
      exact noRaw_body (noRaw_atLevel ih hsequence) hsubquery (.head _)

/-! ## Places of blocks -/

theorem lines_inside (depth : Nat) {clauses : List Clause} {clause : Clause}
    (h : clause ∈ clauses) : clause.lines depth <:+: linesAll depth clauses := by
  obtain ⟨before, after, rfl⟩ := List.append_of_mem h
  rw [linesAll_append, linesAll]
  exact ⟨linesAll depth before, linesAll depth after, List.append_assoc _ _ _⟩

theorem branch_inside (depth : Nat) (mode : UnionMode) {branches : List (List Clause)}
    {branch : List Clause} (h : branch ∈ branches) :
    linesAll depth branch <:+: branchLines depth mode branches := by
  induction branches with
  | nil => cases h
  | cons first rest ih =>
      cases rest with
      | nil =>
          obtain rfl := List.mem_singleton.mp h
          exact List.infix_rfl
      | cons next rest =>
          rcases List.mem_cons.mp h with rfl | hlater
          · exact (List.prefix_append _ _).isInfix
          · have hrest : branchLines depth mode (next :: rest) <:+
                branchLines depth mode (first :: next :: rest) :=
              (List.suffix_cons _ _).trans (List.suffix_append _ _)
            exact (ih hlater).trans hrest.isInfix

theorem atLevel_inside (depth : Nat) (h : AtLevel block sequence) :
    linesAll depth sequence <:+: linesAll depth block := by
  induction h with
  | block => exact List.infix_rfl
  | branch _ hunion hbranch ih =>
      exact (branch_inside depth _ hbranch).trans ((lines_inside depth hunion).trans ih)

theorem body_inside (depth : Nat) (body : List Clause) :
    linesAll (depth + 1) body <:+: (Clause.subquery body).lines depth :=
  ⟨[lineAt depth "CALL \x7b"], [lineAt depth "\x7d"], by simp [lines]⟩

theorem block_inside (h : Block whole depth block) :
    linesAll depth block <:+: linesAll 0 whole := by
  induction h with
  | whole => exact List.infix_rfl
  | @body depth block sequence body _ hsequence hsubquery ih =>
      have hlines := (lines_inside depth hsubquery).trans (atLevel_inside depth hsequence)
      exact (body_inside depth body).trans (hlines.trans ih)

/-- Each body stands between its braces. -/
theorem subquery_inside (h : Block whole (depth + 1) block) :
    (Clause.subquery block).lines depth <:+: linesAll 0 whole := by
  cases h with
  | body hblock hsequence hsubquery =>
      exact (lines_inside depth hsubquery).trans
        ((atLevel_inside depth hsequence).trans (block_inside hblock))

/-! ## Groups -/

mutual

/-- The sequences that the separators of a block part: those of the branches, where the block is a
union of any, else the block alone. -/
def groups : List Clause → List (List Clause)
  | [.union _ (first :: rest)] => groups first ++ groupsOfBranches rest
  | clauses => [clauses]

def groupsOfBranches : List (List Clause) → List (List Clause)
  | [] => []
  | branch :: rest => groups branch ++ groupsOfBranches rest

end

theorem groups_cases (clauses : List Clause) :
    (∃ mode branches, branches ≠ [] ∧ clauses = [.union mode branches] ∧
        groups clauses = groupsOfBranches branches) ∨
      groups clauses = [clauses] ∧ ∀ clause, clauses = [clause] → clause.separators = [] := by
  unfold groups
  split
  · next mode first rest =>
      exact .inl ⟨mode, first :: rest, List.cons_ne_nil _ _, rfl, by rw [groupsOfBranches]⟩
  · next hother =>
      refine .inr ⟨rfl, ?_⟩
      rintro clause rfl
      cases hunion : clause.keyword.isUnion with
      | false => exact separators_eq_nil hunion
      | true =>
          obtain ⟨mode, branches, rfl⟩ := exists_union hunion
          cases branches with
          | nil => rfl
          | cons first rest => exact absurd rfl (hother mode first rest)

theorem mem_groupsOfBranches {group : List Clause} {branches : List (List Clause)} :
    group ∈ groupsOfBranches branches ↔ ∃ branch ∈ branches, group ∈ groups branch := by
  induction branches with
  | nil =>
      rw [groupsOfBranches]
      exact ⟨nofun, nofun⟩
  | cons branch rest ih => simp [groupsOfBranches, ih]

/-- Induction over sequences of clauses, from those inside them. -/
theorem inductionAll {motive : List Clause → Prop}
    (h : ∀ clauses, (∀ clause ∈ clauses, ∀ body ∈ clause.bodies, motive body) → motive clauses)
    (clauses : List Clause) : motive clauses :=
  h clauses fun clause _ => clause.induction fun _ ih body hbody => h body (ih body hbody)

theorem groups_branchOf (block : List Clause) :
    groups block = [block] ∨ ∀ group ∈ groups block, BranchOf block group := by
  induction block using inductionAll with
  | h block ih =>
      obtain ⟨mode, branches, -, rfl, hgroups⟩ | ⟨hgroups, -⟩ := groups_cases block
      · refine .inr fun group hgroup => ?_
        have hmem : Clause.union mode branches ∈ [Clause.union mode branches] := .head _
        rw [hgroups, mem_groupsOfBranches] at hgroup
        obtain ⟨branch, hbranch, hgroup⟩ := hgroup
        obtain hwhole | hbranches := ih _ hmem branch hbranch
        · rw [hwhole, List.mem_singleton] at hgroup
          exact ⟨_, mode, branches, .block, hmem, hgroup ▸ hbranch⟩
        · obtain ⟨around, other, others, haround, hunion, hgroup⟩ := hbranches group hgroup
          have hlevel : AtLevel [Clause.union mode branches] branch :=
            .branch .block hmem hbranch
          exact ⟨around, other, others, hlevel.trans haround, hunion, hgroup⟩
      · exact .inl hgroups

/-! ## Unions that stand apart -/

/-- At the depth of the block, a union that prints separators is alone in its sequence. -/
def Apart (block : List Clause) : Prop :=
  ∀ sequence, AtLevel block sequence → separatorsAll sequence = [] ∨ sequence.length = 1

/-- The unions of several branches at the depth of the block are of the mode. -/
def Uniform (mode : UnionMode) (block : List Clause) : Prop :=
  ∀ sequence, AtLevel block sequence → ∀ other branches, .union other branches ∈ sequence →
    2 ≤ branches.length → other = mode

theorem Apart.atLevel (h : Apart block) (hsequence : AtLevel block sequence) : Apart sequence :=
  fun inside hinside => h inside (hsequence.trans hinside)

/-- A separator is of a union at the depth of the block. -/
theorem exists_union_of_separator {mode : UnionMode} (h : mode ∈ separatorsAll block) :
    ∃ sequence branches, AtLevel block sequence ∧ .union mode branches ∈ sequence ∧
      2 ≤ branches.length := by
  induction block using inductionAll with
  | h block ih =>
      obtain ⟨clause, hclause, hmode⟩ := mem_separatorsAll.mp h
      cases hunion : clause.keyword.isUnion with
      | false =>
          rw [separators_eq_nil hunion] at hmode
          cases hmode
      | true =>
          obtain ⟨own, branches, rfl⟩ := exists_union hunion
          obtain ⟨rfl, hbranches⟩ | ⟨branch, hbranch, hmode⟩ := mem_separatorsBetween hmode
          · exact ⟨block, branches, .block, hclause, hbranches⟩
          · obtain ⟨sequence, others, hsequence, hfound⟩ := ih _ hclause branch hbranch hmode
            have hlevel : AtLevel block branch := .branch .block hclause hbranch
            exact ⟨sequence, others, hlevel.trans hsequence, hfound⟩

/-- Where all unions are of one mode, no separator is of another. -/
theorem Uniform.separator {mode : UnionMode} (h : Uniform mode block) (hraw : NoRaw block)
    {line : String} (hline : line ∈ linesAll depth block) (hseparator : isSeparator depth line) :
    line = lineAt depth mode.keyword.text := by
  have hfiltered := List.mem_filter.mpr ⟨hline, hseparator⟩
  rw [filter_linesAll depth hraw] at hfiltered
  obtain ⟨other, hother, rfl⟩ := List.mem_map.mp hfiltered
  obtain ⟨sequence, branches, hsequence, hunion, hbranches⟩ := exists_union_of_separator hother
  rw [h sequence hsequence other branches hunion hbranches]

theorem splitOnP_branchLines (mode : UnionMode) {branches : List (List Clause)}
    (hne : branches ≠ [])
    (h : ∀ branch ∈ branches, (linesAll depth branch).splitOnP (isSeparator depth) =
      (groups branch).map (linesAll depth)) :
    (branchLines depth mode branches).splitOnP (isSeparator depth) =
      (groupsOfBranches branches).map (linesAll depth) := by
  induction branches with
  | nil => exact absurd rfl hne
  | cons branch rest ih =>
      obtain ⟨hbranch, hrest⟩ := List.forall_mem_cons.mp h
      cases rest with
      | nil => rwa [branchLines, groupsOfBranches, groupsOfBranches, List.append_nil]
      | cons next rest =>
          rw [groupsOfBranches, List.map_append, branchLines,
            List.splitOnP_append_cons _ _ (isSeparator_mode depth mode), hbranch,
            ih (List.cons_ne_nil _ _) hrest]

/-- Where no separator stands beside clauses, the lines fall into those of the groups. -/
theorem Apart.splitOnP_linesAll (h : Apart block) (depth : Nat) (hraw : NoRaw block) :
    (linesAll depth block).splitOnP (isSeparator depth) =
      (groups block).map (linesAll depth) := by
  induction block using inductionAll with
  | h block ih =>
      obtain ⟨mode, branches, hne, rfl, hgroups⟩ | ⟨hgroups, hlone⟩ := groups_cases block
      · have hmem : Clause.union mode branches ∈ [Clause.union mode branches] := .head _
        rw [hgroups, linesAll, linesAll, List.append_nil]
        refine splitOnP_branchLines mode hne fun branch hbranch => ?_
        exact ih _ hmem branch hbranch (h.atLevel (.branch .block hmem hbranch))
          (noRaw_body hraw hmem hbranch)
      · have hnone : separatorsAll block = [] := by
          obtain hnone | hlength := h block .block
          · exact hnone
          · obtain ⟨clause, rfl⟩ := List.length_eq_one_iff.mp hlength
            rw [separatorsAll, hlone clause rfl]
            rfl
        have hfilter := filter_linesAll depth hraw
        rw [hnone, List.map_nil, List.filter_eq_nil_iff] at hfilter
        rw [hgroups, List.splitOnP_eq_singleton fun line hline =>
          Bool.eq_false_iff.mpr (hfilter line hline)]
        rfl

/-- The separators of a block tell its groups apart, which are branches if there are several. -/
structure Grouped (depth : Nat) (block : List Clause) : Prop where
  lines : (linesAll depth block).splitOnP (isSeparator depth) = (groups block).map (linesAll depth)
  branches : groups block = [block] ∨ ∀ group ∈ groups block, BranchOf block group

theorem Apart.grouped (h : Apart block) (depth : Nat) (hraw : NoRaw block) :
    Grouped depth block where
  lines := h.splitOnP_linesAll depth hraw
  branches := groups_branchOf block

end Clause

end GraphQuery
