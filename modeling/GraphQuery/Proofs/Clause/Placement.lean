import GraphQuery.Proofs.Clause.Grammar

/-! # Placement

The check of a query looks at each clause and its neighbour. It accepts the queries of which every
sequence, at any depth, is made of whole blocks, and else reports the first clause in reading
order that does not go on with the sequence in front of it. -/

namespace GraphQuery

/-! ## Sequences inside clauses -/

/-- The sequences inside a clause. -/
def Clause.bodies : Clause → List (List Clause)
  | .subquery body => [body]
  | .forEach _ _ updates => [updates]
  | .union _ branches => branches
  | _ => []

theorem Clause.sizeOf_body {clause : Clause} {body : List Clause} (h : body ∈ clause.bodies) :
    sizeOf body < sizeOf clause := by
  cases clause with
  | subquery inside =>
      obtain rfl := List.mem_singleton.mp h
      simp only [subquery.sizeOf_spec]
      omega
  | forEach item list updates =>
      obtain rfl := List.mem_singleton.mp h
      simp only [forEach.sizeOf_spec]
      omega
  | union mode branches =>
      have hbody : sizeOf body < sizeOf branches := List.sizeOf_lt_of_mem h
      simp only [union.sizeOf_spec]
      omega
  | _ => cases h

/-- Induction over clauses, with those of the sequences inside. -/
theorem Clause.induction {motive : Clause → Prop}
    (h : ∀ clause, (∀ body ∈ clause.bodies, ∀ inside ∈ body, motive inside) → motive clause)
    (clause : Clause) : motive clause :=
  h clause fun _ _ inside _ => Clause.induction h inside
termination_by sizeOf clause
decreasing_by exact Nat.lt_trans (List.sizeOf_lt_of_mem ‹_›) (Clause.sizeOf_body ‹_›)

/-- A list of clauses, and the sequences inside them at any depth. -/
inductive Clause.Within (sequence : List Clause) : List Clause → Prop
  | whole : Within sequence sequence
  | inside {clauses body : List Clause} {clause : Clause} (hclause : clause ∈ clauses)
      (hbody : body ∈ clause.bodies) (hwithin : Within sequence body) : Within sequence clauses

/-! ## Reading order -/

/-- A clause where it stands: its keyword, and the keywords in front of it in its sequence. -/
structure Occurrence where
  before : List Keyword
  keyword : Keyword

/-- The keywords in front of the clause do not go on with it. -/
def Occurrence.Breaks (occurrence : Occurrence) : Prop :=
  occurrence.before ++ [occurrence.keyword] ∉ Keyword.sequences

mutual

def Clause.occurrencesInside : Clause → List Occurrence
  | .subquery body => Clause.occurrencesFrom [] body
  | .forEach _ _ updates => Clause.occurrencesFrom [] updates
  | .union _ branches => Clause.occurrencesOfAll branches
  | _ => []

/-- A clause comes before those inside it, and these before the next clause. -/
def Clause.occurrencesFrom (before : List Keyword) : List Clause → List Occurrence
  | [] => []
  | clause :: rest =>
      ⟨before, clause.keyword⟩ ::
        (clause.occurrencesInside ++ Clause.occurrencesFrom (before ++ [clause.keyword]) rest)

def Clause.occurrencesOfAll : List (List Clause) → List Occurrence
  | [] => []
  | branch :: rest => Clause.occurrencesFrom [] branch ++ Clause.occurrencesOfAll rest

end

namespace Clause

/-- All clauses of a query in reading order. -/
def occurrences (clauses : List Clause) : List Occurrence := occurrencesFrom [] clauses

theorem occurrencesInside_eq (clause : Clause) :
    clause.occurrencesInside = occurrencesOfAll clause.bodies := by
  cases clause with
  | subquery body => exact (List.append_nil _).symm
  | forEach item list updates => exact (List.append_nil _).symm
  | _ => rfl

theorem checkInside_eq (clause : Clause) : clause.checkInside = checkBranches clause.bodies := by
  cases clause with
  | subquery body =>
      simp only [checkInside, bodies, checkBranches]
      cases checkFrom none body <;> rfl
  | forEach item list updates =>
      simp only [checkInside, bodies, checkBranches]
      cases checkFrom none updates <;> rfl
  | _ => rfl

/-! ## The clause that is reported -/

/-- The result of a check is that of the first clause that breaks its sequence, if there is one. -/
def Reports (result : Except Fault Unit) (occurrences : List Occurrence) : Prop :=
  match result with
  | .ok () => ∀ occurrence ∈ occurrences, ¬ occurrence.Breaks
  | .error fault => ∃ before first after, occurrences = before ++ first :: after ∧
      (∀ occurrence ∈ before, ¬ occurrence.Breaks) ∧ first.Breaks ∧
      fault = .misplacedClause first.keyword

theorem Reports.nil : Reports (.ok ()) [] := List.forall_mem_nil _

theorem Reports.append {result next : Except Fault Unit} {occurrences later : List Occurrence}
    (hresult : Reports result occurrences) (hnext : Reports next later) :
    Reports (result >>= fun _ => next) (occurrences ++ later) := by
  cases result with
  | ok _ =>
      cases next with
      | ok _ => exact List.forall_mem_append.mpr ⟨hresult, hnext⟩
      | error fault =>
          obtain ⟨before, first, after, rfl, hbefore, hfirst, hfault⟩ := hnext
          exact ⟨occurrences ++ before, first, after, by simp,
            List.forall_mem_append.mpr ⟨hresult, hbefore⟩, hfirst, hfault⟩
  | error fault =>
      obtain ⟨before, first, after, rfl, hbefore, hfirst, hfault⟩ := hresult
      exact ⟨before, first, after ++ later, by simp, hbefore, hfirst, hfault⟩

theorem reports_from {clauses : List Clause}
    (hinside : ∀ clause ∈ clauses, Reports clause.checkInside clause.occurrencesInside)
    {before : List Keyword} (hbefore : before ∈ Keyword.sequences) :
    Reports (checkFrom before.getLast? clauses) (occurrencesFrom before clauses) := by
  induction clauses generalizing before with
  | nil => exact .nil
  | cons clause rest ih =>
      obtain ⟨hclause, hrest⟩ := List.forall_mem_cons.mp hinside
      have hgoes := Keyword.concat_mem_sequences_iff hbefore clause.keyword
      rw [checkFrom, occurrencesFrom]
      split
      · next hmay =>
          have hlast : some clause.keyword = (before ++ [clause.keyword]).getLast? := by simp
          have hhead : Reports (.ok ()) [⟨before, clause.keyword⟩] :=
            List.forall_mem_singleton.mpr fun hbreaks => hbreaks (hgoes.mpr hmay)
          rw [hlast]
          exact hhead.append (hclause.append (ih hrest (hgoes.mpr hmay)))
      · next hmay =>
          exact ⟨[], _, _, rfl, List.forall_mem_nil _, fun hmem => hmay (hgoes.mp hmem), rfl⟩

theorem reports_branches {branches : List (List Clause)}
    (hinside : ∀ branch ∈ branches, ∀ clause ∈ branch,
      Reports clause.checkInside clause.occurrencesInside) :
    Reports (checkBranches branches) (occurrencesOfAll branches) := by
  induction branches with
  | nil => exact .nil
  | cons branch rest ih =>
      obtain ⟨hbranch, hrest⟩ := List.forall_mem_cons.mp hinside
      have hempty : [] ∈ Keyword.sequences := Language.nil_mem_kstar _
      exact (reports_from hbranch hempty).append (ih hrest)

theorem reports_inside (clause : Clause) :
    Reports clause.checkInside clause.occurrencesInside := by
  induction clause using Clause.induction with
  | h clause ih =>
      rw [checkInside_eq, occurrencesInside_eq]
      exact reports_branches ih

theorem reports_checkPlacement (clauses : List Clause) :
    Reports (checkPlacement clauses) (occurrences clauses) :=
  reports_from (fun clause _ => reports_inside clause) (Language.nil_mem_kstar _)

/-! ## What stands where -/

/-- What stands in a sequence itself, in front of it the clauses before, or inside one of these. -/
theorem mem_occurrencesFrom {before : List Keyword} {clauses : List Clause}
    {occurrence : Occurrence} :
    occurrence ∈ occurrencesFrom before clauses ↔
      (∃ front, occurrence.before = before ++ front ∧
        front ++ [occurrence.keyword] <+: clauses.map keyword) ∨
      ∃ clause ∈ clauses, occurrence ∈ clause.occurrencesInside := by
  induction clauses generalizing before with
  | nil => simp [occurrencesFrom]
  | cons clause rest ih =>
      rw [occurrencesFrom, List.mem_cons, List.mem_append, ih]
      constructor
      · rintro (rfl | hinside | ⟨front, hbefore, hfront⟩ | ⟨later, hlater, hinside⟩)
        · exact .inl ⟨[], by simp, by simp⟩
        · exact .inr ⟨clause, by simp, hinside⟩
        · refine .inl ⟨clause.keyword :: front, by simp [hbefore], ?_⟩
          simpa using hfront
        · exact .inr ⟨later, by simp [hlater], hinside⟩
      · rintro (⟨front, hbefore, hfront⟩ | ⟨later, hlater, hinside⟩)
        · cases front with
          | nil =>
              have hkeyword : occurrence.keyword = clause.keyword := by simpa using hfront
              rw [List.append_nil] at hbefore
              exact .inl (by rw [← hbefore, ← hkeyword])
          | cons first front =>
              obtain ⟨rfl, hrest⟩ : first = clause.keyword ∧
                  front ++ [occurrence.keyword] <+: rest.map keyword := by simpa using hfront
              exact .inr (.inr (.inl ⟨front, by simp [hbefore], hrest⟩))
        · rcases List.mem_cons.mp hlater with rfl | hlater
          · exact .inr (.inl hinside)
          · exact .inr (.inr (.inr ⟨later, hlater, hinside⟩))

theorem mem_occurrencesOfAll {branches : List (List Clause)} {occurrence : Occurrence} :
    occurrence ∈ occurrencesOfAll branches ↔
      ∃ branch ∈ branches, occurrence ∈ occurrences branch := by
  induction branches with
  | nil => simp [occurrencesOfAll]
  | cons branch rest ih => simp [occurrencesOfAll, ih, occurrences]

theorem mem_occurrences_of_inside {clauses body : List Clause} {clause : Clause}
    {occurrence : Occurrence} (hclause : clause ∈ clauses) (hbody : body ∈ clause.bodies)
    (h : occurrence ∈ occurrences body) : occurrence ∈ occurrences clauses := by
  refine mem_occurrencesFrom.mpr (.inr ⟨clause, hclause, ?_⟩)
  rw [occurrencesInside_eq]
  exact mem_occurrencesOfAll.mpr ⟨body, hbody, h⟩

theorem exists_within {occurrence : Occurrence} {clauses : List Clause}
    (hinside : ∀ clause ∈ clauses, occurrence ∈ clause.occurrencesInside →
      ∃ body ∈ clause.bodies, ∃ sequence, Within sequence body ∧
        occurrence.before ++ [occurrence.keyword] <+: sequence.map keyword)
    (h : occurrence ∈ occurrences clauses) :
    ∃ sequence, Within sequence clauses ∧
      occurrence.before ++ [occurrence.keyword] <+: sequence.map keyword := by
  rcases mem_occurrencesFrom.mp h with ⟨front, hbefore, hfront⟩ | ⟨clause, hclause, hmem⟩
  · rw [hbefore, List.nil_append]
    exact ⟨clauses, .whole, hfront⟩
  · obtain ⟨body, hbody, sequence, hwithin, hprefix⟩ := hinside clause hclause hmem
    exact ⟨sequence, .inside hclause hbody hwithin, hprefix⟩

theorem exists_within_inside (occurrence : Occurrence) (clause : Clause)
    (h : occurrence ∈ clause.occurrencesInside) :
    ∃ body ∈ clause.bodies, ∃ sequence, Within sequence body ∧
      occurrence.before ++ [occurrence.keyword] <+: sequence.map keyword := by
  induction clause using Clause.induction with
  | h clause ih =>
      rw [occurrencesInside_eq] at h
      obtain ⟨body, hbody, hmem⟩ := mem_occurrencesOfAll.mp h
      exact ⟨body, hbody, exists_within (ih body hbody) hmem⟩

/-- The occurrences in a query are the places in the sequences inside it. -/
theorem mem_occurrences_iff {clauses : List Clause} {occurrence : Occurrence} :
    occurrence ∈ occurrences clauses ↔
      ∃ sequence, Within sequence clauses ∧
        occurrence.before ++ [occurrence.keyword] <+: sequence.map keyword := by
  constructor
  · exact exists_within fun clause _ => exists_within_inside occurrence clause
  · rintro ⟨sequence, hwithin, hprefix⟩
    induction hwithin with
    | whole => exact mem_occurrencesFrom.mpr (.inl ⟨occurrence.before, rfl, hprefix⟩)
    | inside hclause hbody _ ih => exact mem_occurrences_of_inside hclause hbody ih

theorem forall_not_breaks_iff (clauses : List Clause) :
    (∀ occurrence ∈ occurrences clauses, ¬ occurrence.Breaks) ↔
      ∀ sequence, Within sequence clauses → sequence.map keyword ∈ Keyword.sequences := by
  constructor
  · intro h sequence hwithin
    rcases List.eq_nil_or_concat (sequence.map keyword) with hnil | ⟨front, last, hlast⟩
    · rw [hnil]
      exact Language.nil_mem_kstar _
    · have hmem : ⟨front, last⟩ ∈ occurrences clauses :=
        mem_occurrences_iff.mpr ⟨sequence, hwithin, by rw [hlast, List.concat_eq_append]⟩
      rw [hlast, List.concat_eq_append]
      exact not_not.mp (h _ hmem)
  · rintro h occurrence hmem
    obtain ⟨sequence, hwithin, later, hlater⟩ := mem_occurrences_iff.mp hmem
    have hwhole := h sequence hwithin
    rw [← hlater] at hwhole
    exact not_not.mpr (Keyword.mem_sequences_of_append hwhole)

/-! ## The check -/

/-- The check accepts the queries whose sequences all belong to the grammar, and of the others
reports the first clause that leaves it. -/
theorem checkPlacement_spec (clauses : List Clause) :
    (checkPlacement clauses = .ok () ↔
      ∀ sequence, Within sequence clauses → sequence.map keyword ∈ Keyword.sequences) ∧
    ∀ fault, checkPlacement clauses = .error fault →
      ∃ before first after, occurrences clauses = before ++ first :: after ∧
        (∀ occurrence ∈ before, ¬ occurrence.Breaks) ∧ first.Breaks ∧
        fault = .misplacedClause first.keyword := by
  have hreports := reports_checkPlacement clauses
  rw [← forall_not_breaks_iff]
  cases hresult : checkPlacement clauses with
  | ok _ =>
      rw [hresult] at hreports
      exact ⟨iff_of_true rfl hreports, fun fault h => by cases h⟩
  | error fault =>
      rw [hresult] at hreports
      obtain ⟨before, first, after, heq, hbefore, hfirst, hfault⟩ := hreports
      refine ⟨iff_of_false (fun h => by cases h) fun h => ?_, fun fault' h => ?_⟩
      · exact h first (by simp [heq]) hfirst
      · cases h
        exact ⟨before, first, after, heq, hbefore, hfirst, hfault⟩

/-- An order after a skip in a block, and a limit after the block. -/
def misplacedClauses : List Clause :=
  [.merge { start := {} }, .onMerge .created [], .onMerge .matched [],
    .subquery [.project .passing false [], .skip "1", .orderBy []], .limit "1"]

theorem checkPlacement_spec_misplacedClauses :
    ∃ before first after, occurrences misplacedClauses = before ++ first :: after ∧
      (∀ occurrence ∈ before, ¬ occurrence.Breaks) ∧ first.Breaks ∧
      Fault.misplacedClause .orderBy = .misplacedClause first.keyword :=
  (checkPlacement_spec misplacedClauses).2 _ rfl

end Clause

end GraphQuery
