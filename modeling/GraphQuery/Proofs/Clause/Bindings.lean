import GraphQuery.Proofs.FirstOccurrence
import GraphQuery.Query

/-! # Bindings

A query is made of clauses that stand in their places. Its bindings are those of the columns it
returns, each pair once. -/

namespace GraphQuery

namespace Query

/-- The query of clauses that all stand in their places. -/
def ofPlaced (clauses : List Clause) (parameters : OrderedMap String Value) : Query :=
  ⟨Clause.textAll 0 clauses, parameters, Clause.bindingsOfAll [] clauses⟩

theorem compile_eq_ok_iff {clauses : List Clause} {parameters : OrderedMap String Value}
    {query : Query} :
    compile clauses parameters = .ok query ↔
      Clause.checkPlacement clauses = .ok () ∧ query = ofPlaced clauses parameters := by
  unfold compile
  cases Clause.checkPlacement clauses with
  | error fault => exact ⟨nofun, nofun⟩
  | ok _ => simp [ofPlaced, eq_comm]

end Query

/-! ## Returned columns -/

mutual

/-- The columns that leave the query by way of a clause. -/
def Clause.returned : Clause → List Column
  | .project .returning _ columns => columns
  | .union _ branches => Clause.returnedOfBranches branches
  | _ => []

def Clause.returnedOfAll : List Clause → List Column
  | [] => []
  | clause :: rest => clause.returned ++ Clause.returnedOfAll rest

def Clause.returnedOfBranches : List (List Clause) → List Column
  | [] => []
  | branch :: rest => Clause.returnedOfAll branch ++ Clause.returnedOfBranches rest

end

theorem Clause.returnedOfAll_append (clauses others : List Clause) :
    Clause.returnedOfAll (clauses ++ others) =
      Clause.returnedOfAll clauses ++ Clause.returnedOfAll others := by
  induction clauses with
  | nil => rfl
  | cons clause rest ih => simp [Clause.returnedOfAll, ih]

theorem Clause.returnedOfAll_eq (clauses : List Clause) :
    Clause.returnedOfAll clauses = clauses.flatMap Clause.returned := by
  induction clauses with
  | nil => rfl
  | cons clause rest ih => rw [Clause.returnedOfAll, ih, List.flatMap_cons]

theorem Clause.returnedOfBranches_eq (branches : List (List Clause)) :
    Clause.returnedOfBranches branches = branches.flatMap Clause.returnedOfAll := by
  induction branches with
  | nil => rfl
  | cons branch rest ih => rw [Clause.returnedOfBranches, ih, List.flatMap_cons]

/-- An empty clause returns nothing. -/
theorem Clause.returned_eq_nil_of_isEmpty {clause : Clause} (h : clause.isEmpty) :
    clause.returned = [] := by
  cases clause with
  | project verb distinct columns =>
      cases List.isEmpty_iff.mp h
      cases verb <;> rfl
  | union mode branches =>
      cases List.isEmpty_iff.mp h
      rfl
  | _ => rfl

/-! ## Adding bindings -/

theorem Column.binding?_eq_some_iff {column : Column} {pair : String × Token} :
    column.binding? = some pair ↔
      column.name = pair.1 ∧ column.destination = some pair.2 := by
  obtain ⟨name, token⟩ := pair
  simp [Column.binding?, and_comm]

section

variable (found : List (String × Token))

theorem addBindings_append (columns others : List Column) :
    addBindings found (columns ++ others) = addBindings (addBindings found columns) others := by
  rw [addBindings, List.filterMap_append, List.foldl_append]
  rfl

theorem addBindings_nil (columns : List Column) :
    addBindings [] columns = (columns.filterMap Column.binding?).eraseDups := by
  rw [addBindings]
  generalize columns.filterMap Column.binding? = pairs
  induction pairs using List.reverseRecOn with
  | nil => rfl
  | append_singleton rest last ih =>
      rw [List.foldl_append, ih, List.foldl_cons, List.foldl_nil, eraseDups_concat]
      simp only [List.mem_eraseDups]

theorem prefix_addBindings (columns : List Column) : found <+: addBindings found columns := by
  rw [addBindings]
  generalize columns.filterMap Column.binding? = pairs
  induction pairs generalizing found with
  | nil => exact List.prefix_rfl
  | cons first rest ih =>
      rw [List.foldl_cons]
      split
      · exact ih found
      · exact (List.prefix_append found [first]).trans (ih _)

theorem mem_addBindings {columns : List Column} {pair : String × Token} :
    pair ∈ addBindings found columns ↔
      pair ∈ found ∨ ∃ column ∈ columns, column.binding? = some pair := by
  rw [addBindings, ← List.mem_filterMap]
  generalize columns.filterMap Column.binding? = pairs
  induction pairs generalizing found with
  | nil => simp
  | cons first rest ih =>
      rw [List.foldl_cons, ih, List.mem_cons]
      split
      · next hfirst =>
          refine ⟨Or.imp_right .inr, ?_⟩
          rintro (hpair | rfl | hpair)
          · exact .inl hpair
          · exact .inl hfirst
          · exact .inr hpair
      · rw [List.mem_append, List.mem_singleton, or_assoc]

mutual

theorem Clause.bindings_eq (found : List (String × Token)) : ∀ clause : Clause,
    clause.bindings found = addBindings found clause.returned
  | .project .returning _ _ => by rw [Clause.bindings, Clause.returned]
  | .union _ branches => by
      rw [Clause.bindings, Clause.returned]
      exact Clause.bindingsOfBranches_eq found branches
  | .project .passing _ _ | .use _ | .pattern _ _ | .merge _ | .onMerge _ _ | .condition _
  | .orderBy _ | .skip _ | .limit _ | .update _ | .unwind _ _ | .call _ | .showCommand _
  | .yielding _ | .forEach _ _ _ | .subquery _ | .rawText _ => rfl

theorem Clause.bindingsOfAll_eq (found : List (String × Token)) : ∀ clauses : List Clause,
    Clause.bindingsOfAll found clauses = addBindings found (Clause.returnedOfAll clauses)
  | [] => rfl
  | clause :: rest => by
      rw [Clause.bindingsOfAll, Clause.bindings_eq, Clause.bindingsOfAll_eq, Clause.returnedOfAll,
        addBindings_append]

theorem Clause.bindingsOfBranches_eq (found : List (String × Token)) :
    ∀ branches : List (List Clause),
      Clause.bindingsOfBranches found branches =
        addBindings found (Clause.returnedOfBranches branches)
  | [] => rfl
  | branch :: rest => by
      rw [Clause.bindingsOfBranches, Clause.bindingsOfAll_eq, Clause.bindingsOfBranches_eq,
        Clause.returnedOfBranches, addBindings_append]

end

end

theorem Query.mem_bindings_iff {clauses : List Clause} {parameters : OrderedMap String Value}
    {query : Query} (h : Query.compile clauses parameters = .ok query) {pair : String × Token} :
    pair ∈ query.bindings ↔
      ∃ column ∈ Clause.returnedOfAll clauses, column.binding? = some pair := by
  obtain ⟨-, rfl⟩ := Query.compile_eq_ok_iff.mp h
  rw [Query.ofPlaced, Clause.bindingsOfAll_eq, mem_addBindings]
  simp

end GraphQuery
