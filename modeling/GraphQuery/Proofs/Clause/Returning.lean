import Mathlib.Data.List.Lex
import Mathlib.Order.Lattice
import GraphQuery.Proofs.Clause.Bindings
import GraphQuery.Proofs.Clause.Placement

/-! # Columns in reading order

Where a query returns its columns: at the top, and in the branches of unions there. Its bindings
are those of the columns at these places, each where it comes first. -/

namespace GraphQuery

/-! ## Lists of what stands at places

A place is the way to it, by the number of the part on each level. Places are compared as words
are, so that what is read first has the smaller place. -/

variable {α β : Type}

/-- All that stands at a place, with its place and in the order of places. -/
structure Placed (At : List Nat → α → Prop) (placed : List (List Nat × α)) : Prop where
  ascending : placed.Pairwise fun item other => item.1 < other.1
  mem_iff : ∀ place item, (place, item) ∈ placed ↔ At place item

/-- The list goes through all that stands at a place, in the order of places. -/
def Enumerates (At : List Nat → α → Prop) (items : List α) : Prop :=
  ∃ placed, Placed At placed ∧ placed.map Prod.snd = items

namespace Enumerates

variable {At : List Nat → α → Prop} {items : List α}

theorem mem_iff (h : Enumerates At items) {item : α} : item ∈ items ↔ ∃ place, At place item := by
  obtain ⟨placed, hplaced, rfl⟩ := h
  simp only [List.mem_map, Prod.exists, exists_eq_right, hplaced.mem_iff]

theorem nil (h : ∀ place item, ¬ At place item) : Enumerates At [] :=
  ⟨[], ⟨.nil, fun place item => iff_of_false List.not_mem_nil (h place item)⟩, rfl⟩

theorem singleton (item : α) : Enumerates (fun place other => place = [] ∧ other = item) [item] :=
  ⟨[([], item)], ⟨List.pairwise_singleton _ _, fun _ _ => by simp⟩, rfl⟩

theorem congr {At' : List Nat → α → Prop} (h : Enumerates At items)
    (hat : ∀ place item, At place item ↔ At' place item) : Enumerates At' items := by
  obtain ⟨placed, hplaced, hitems⟩ := h
  refine ⟨placed, ⟨hplaced.ascending, fun place item => ?_⟩, hitems⟩
  rw [hplaced.mem_iff, hat]

/-- The parts of a list one after another, each numbered. -/
theorem flatMap {parts : List β} {items : β → List α} {At : β → List Nat → α → Prop}
    (h : ∀ part ∈ parts, Enumerates (At part) (items part)) :
    Enumerates (fun place item => ∃ number rest part, place = number :: rest ∧
      parts[number]? = some part ∧ At part rest item) (parts.flatMap items) := by
  induction parts using List.reverseRecOn with
  | nil => exact nil (by simp)
  | append_singleton front last ih =>
      obtain ⟨hfront, hlast⟩ := List.forall_mem_append.mp h
      obtain ⟨placed, hplaced, hitems⟩ := ih hfront
      obtain ⟨more, hmore, hlater⟩ := List.forall_mem_singleton.mp hlast
      refine ⟨placed ++ more.map fun item => (front.length :: item.1, item.2), ⟨?_, ?_⟩, ?_⟩
      · rw [List.pairwise_append]
        refine ⟨hplaced.ascending, ?_, ?_⟩
        · rw [List.pairwise_map]
          refine hmore.ascending.imp ?_
          intro item other hless
          exact List.cons_lt_cons_iff.mpr (.inr ⟨rfl, hless⟩)
        · rintro ⟨place, item⟩ hitem other hother
          obtain ⟨inside, -, rfl⟩ := List.mem_map.mp hother
          obtain ⟨number, rest, part, rfl, hpart, -⟩ := (hplaced.mem_iff place item).mp hitem
          obtain ⟨hnumber, -⟩ := List.getElem?_eq_some_iff.mp hpart
          exact List.cons_lt_cons_iff.mpr (.inl hnumber)
      · intro place item
        rw [List.mem_append, hplaced.mem_iff]
        constructor
        · rintro (⟨number, rest, part, rfl, hpart, hat⟩ | hmem)
          · obtain ⟨hnumber, -⟩ := List.getElem?_eq_some_iff.mp hpart
            refine ⟨number, rest, part, rfl, ?_, hat⟩
            rwa [List.getElem?_append_left hnumber]
          · obtain ⟨⟨rest, inside⟩, hinside, heq⟩ := List.mem_map.mp hmem
            cases heq
            exact ⟨front.length, rest, last, rfl, List.getElem?_concat_length,
              (hmore.mem_iff rest inside).mp hinside⟩
        · rintro ⟨number, rest, part, rfl, hpart, hat⟩
          by_cases hnumber : number < front.length
          · rw [List.getElem?_append_left hnumber] at hpart
            exact .inl ⟨number, rest, part, rfl, hpart, hat⟩
          · obtain ⟨hbound, -⟩ := List.getElem?_eq_some_iff.mp hpart
            rw [List.length_append, List.length_singleton] at hbound
            obtain rfl : number = front.length := by omega
            rw [List.getElem?_concat_length] at hpart
            cases hpart
            refine .inr (List.mem_map.mpr ⟨(rest, item), ?_, rfl⟩)
            exact (hmore.mem_iff rest item).mpr hat
      · rw [List.map_append, hitems, List.map_map, List.flatMap_append, List.flatMap_singleton,
          ← hlater]
        rfl

theorem filterMap (h : Enumerates At items) (f : α → Option β) :
    Enumerates (fun place result => ∃ item, At place item ∧ f item = some result)
      (items.filterMap f) := by
  obtain ⟨placed, hplaced, rfl⟩ := h
  refine ⟨placed.filterMap fun item => (f item.2).map (item.1, ·), ⟨?_, ?_⟩, ?_⟩
  · refine hplaced.ascending.filterMap _ ?_
    intro item other hless result hresult later hlater
    obtain ⟨_, -, rfl⟩ := Option.map_eq_some_iff.mp hresult
    obtain ⟨_, -, rfl⟩ := Option.map_eq_some_iff.mp hlater
    exact hless
  · intro place result
    simp only [List.mem_filterMap, Option.map_eq_some_iff, Prod.mk.injEq, Prod.exists]
    constructor
    · rintro ⟨other, item, hitem, found, hfound, rfl, rfl⟩
      exact ⟨item, (hplaced.mem_iff other item).mp hitem, hfound⟩
    · rintro ⟨item, hat, hfound⟩
      exact ⟨place, item, (hplaced.mem_iff place item).mpr hat, result, hfound, rfl, rfl⟩
  · rw [List.map_filterMap, List.filterMap_map]
    congr 1
    funext item
    simp [Function.comp_def]

/-- What is looked for is found at the smallest place it stands at. -/
theorem find?_eq_some_iff (h : Enumerates At items) {p : α → Bool} {item : α} :
    items.find? p = some item ↔
      p item = true ∧ ∃ place, At place item ∧ ∀ earlier < place, ∀ other, At earlier other →
        p other = false := by
  obtain ⟨placed, hplaced, rfl⟩ := h
  rw [List.find?_eq_some_iff_append]
  refine and_congr_right fun hitem => ?_
  constructor
  · rintro ⟨front, back, hsplit, hfront⟩
    obtain ⟨before, after, rfl, rfl, hafter⟩ := List.map_eq_append_iff.mp hsplit
    obtain ⟨⟨place, found⟩, later, rfl, rfl, rfl⟩ := List.map_eq_cons_iff.mp hafter
    refine ⟨place, (hplaced.mem_iff place found).mp (by simp), ?_⟩
    intro earlier hearlier other hother
    obtain ⟨-, hlater, -⟩ := List.pairwise_append.mp hplaced.ascending
    rcases List.mem_append.mp ((hplaced.mem_iff earlier other).mpr hother) with hmem | hmem
    · simpa using hfront other (List.mem_map.mpr ⟨_, hmem, rfl⟩)
    · rcases List.mem_cons.mp hmem with heq | hmem
      · cases heq
        exact absurd hearlier (lt_irrefl _)
      · exact absurd hearlier (lt_asymm (List.rel_of_pairwise_cons hlater hmem))
  · rintro ⟨place, hat, hfirst⟩
    obtain ⟨before, after, rfl⟩ := List.append_of_mem ((hplaced.mem_iff place item).mpr hat)
    refine ⟨before.map Prod.snd, after.map Prod.snd, by simp, ?_⟩
    obtain ⟨-, -, hcross⟩ := List.pairwise_append.mp hplaced.ascending
    intro other hother
    obtain ⟨⟨earlier, found⟩, hmem, rfl⟩ := List.mem_map.mp hother
    have hless : earlier < place := hcross _ hmem _ List.mem_cons_self
    simp [hfirst earlier hless found ((hplaced.mem_iff earlier found).mp (by simp [hmem]))]

/-- Of two items the one that stands at the smallest place comes first, however often they stand
there. -/
theorem eraseDups_pairwise [BEq α] [LawfulBEq α] (h : Enumerates At items) :
    items.eraseDups.Pairwise fun item other =>
      ∀ place, At place other → ∃ earlier < place, At earlier item := by
  obtain ⟨placed, hplaced, rfl⟩ := h
  simp only [← hplaced.mem_iff]
  have hascending := hplaced.ascending
  clear hplaced
  induction placed using List.reverseRecOn with
  | nil => exact .nil
  | append_singleton front last ih =>
      obtain ⟨hfront, -, hcross⟩ := List.pairwise_append.mp hascending
      have hless : ∀ item ∈ front, item.1 < last.1 :=
        fun item hitem => hcross item hitem last (List.mem_singleton_self last)
      have hplace : ∀ {item : α}, item ∈ (front.map Prod.snd).eraseDups →
          ∃ place, (place, item) ∈ front := by
        intro item hitem
        obtain ⟨⟨place, found⟩, hmem, rfl⟩ := List.mem_map.mp (List.mem_eraseDups.mp hitem)
        exact ⟨place, hmem⟩
      have hkept : (front.map Prod.snd).eraseDups.Pairwise fun item other =>
          ∀ place, (place, other) ∈ front ++ [last] →
            ∃ earlier < place, (earlier, item) ∈ front ++ [last] := by
        refine (ih hfront).imp_of_mem ?_
        intro item other _ hother hearlier place hmem
        have hfound : ∃ first ≤ place, (first, other) ∈ front := by
          rcases List.mem_append.mp hmem with hmem | hmem
          · exact ⟨place, le_rfl, hmem⟩
          · obtain ⟨first, hfirst⟩ := hplace hother
            have hlast := List.mem_singleton.mp hmem
            exact ⟨first, (hlast ▸ hless _ hfirst).le, hfirst⟩
        obtain ⟨first, hle, hfirst⟩ := hfound
        obtain ⟨earlier, hlt, hitem⟩ := hearlier first hfirst
        exact ⟨earlier, lt_of_lt_of_le hlt hle, List.mem_append_left _ hitem⟩
      rw [List.map_append, List.map_singleton, eraseDups_concat]
      by_cases hmem : last.2 ∈ front.map Prod.snd
      · rwa [if_pos hmem]
      · rw [if_neg hmem, List.pairwise_append]
        refine ⟨hkept, List.pairwise_singleton _ _, ?_⟩
        intro item hitem other hother place hplaced
        obtain rfl := List.mem_singleton.mp hother
        obtain ⟨earlier, hearlier⟩ := hplace hitem
        rcases List.mem_append.mp hplaced with hfound | hlast
        · exact absurd (List.mem_map.mpr ⟨_, hfound, rfl⟩) hmem
        · have hsame : place = last.1 := congrArg Prod.fst (List.mem_singleton.mp hlast)
          exact ⟨earlier, hsame ▸ hless _ hearlier, List.mem_append_left _ hearlier⟩

end Enumerates

/-! ## Where a query returns its columns -/

namespace Clause

/-- The column leaves the query from the place. The place has the number of a clause and that of a
column in it; for each union on the way it has in front the numbers of union and branch. -/
inductive ReturnsAt : List Clause → List Nat → Column → Prop
  | here {clauses : List Clause} {distinct : Bool} {columns : List Column} {column : Column}
      {number position : Nat}
      (hclause : clauses[number]? = some (.project .returning distinct columns))
      (hcolumn : columns[position]? = some column) : ReturnsAt clauses [number, position] column
  | inBranch {clauses branch : List Clause} {mode : UnionMode} {branches : List (List Clause)}
      {column : Column} {number position : Nat} {place : List Nat}
      (hclause : clauses[number]? = some (.union mode branches))
      (hbranch : branches[position]? = some branch) (hreturns : ReturnsAt branch place column) :
      ReturnsAt clauses (number :: position :: place) column

/-- A column at the place bears the name and fills the destination. -/
def BindsAt (clauses : List Clause) (place : List Nat) (pair : String × Token) : Prop :=
  ∃ column, ReturnsAt clauses place column ∧ column.name = pair.1 ∧
    column.destination = some pair.2

/-- What a list of clauses returns is what each of them returns when it stands alone. -/
theorem returnsAt_iff {clauses : List Clause} {place : List Nat} {column : Column} :
    ReturnsAt clauses place column ↔ ∃ number rest clause, place = number :: rest ∧
      clauses[number]? = some clause ∧ ReturnsAt [clause] (0 :: rest) column := by
  constructor
  · rintro (⟨hclause, hcolumn⟩ | ⟨hclause, hbranch, hreturns⟩)
    · exact ⟨_, _, _, rfl, hclause, .here rfl hcolumn⟩
    · exact ⟨_, _, _, rfl, hclause, .inBranch rfl hbranch hreturns⟩
  · rintro ⟨number, rest, clause, rfl, hclause, hreturns⟩
    cases hreturns with
    | here halone hcolumn =>
        cases halone
        exact .here hclause hcolumn
    | inBranch halone hbranch hreturns =>
        cases halone
        exact .inBranch hclause hbranch hreturns

theorem enumerates_of_project (distinct : Bool) (columns : List Column) :
    Enumerates (fun place => ReturnsAt [.project .returning distinct columns] (0 :: place))
      columns := by
  have hparts :=
    Enumerates.flatMap fun column (_ : column ∈ columns) => Enumerates.singleton column
  rw [List.flatMap_singleton'] at hparts
  refine hparts.congr fun place column => ?_
  constructor
  · rintro ⟨number, rest, _, rfl, hcolumn, rfl, rfl⟩
    exact .here rfl hcolumn
  · rintro (⟨halone, hcolumn⟩ | ⟨halone, -, -⟩)
    · cases halone
      exact ⟨_, _, _, rfl, hcolumn, rfl, rfl⟩
    · cases halone

theorem enumerates_of_union (mode : UnionMode) {branches : List (List Clause)}
    (h : ∀ branch ∈ branches, Enumerates (ReturnsAt branch) (returnedOfAll branch)) :
    Enumerates (fun place => ReturnsAt [.union mode branches] (0 :: place))
      (returnedOfBranches branches) := by
  rw [returnedOfBranches_eq]
  refine (Enumerates.flatMap h).congr fun place column => ?_
  constructor
  · rintro ⟨number, rest, branch, rfl, hbranch, hreturns⟩
    exact .inBranch rfl hbranch hreturns
  · rintro (⟨halone, -⟩ | ⟨halone, hbranch, hreturns⟩)
    · cases halone
    · cases halone
      exact ⟨_, _, _, rfl, hbranch, hreturns⟩

theorem enumerates_of_each {clauses : List Clause}
    (h : ∀ clause ∈ clauses,
      Enumerates (fun place => ReturnsAt [clause] (0 :: place)) clause.returned) :
    Enumerates (ReturnsAt clauses) (returnedOfAll clauses) := by
  rw [returnedOfAll_eq]
  exact (Enumerates.flatMap h).congr fun _ _ => returnsAt_iff.symm

theorem enumerates_returned (clause : Clause) :
    Enumerates (fun place => ReturnsAt [clause] (0 :: place)) clause.returned := by
  induction clause using Clause.induction with
  | h clause ih =>
      cases clause with
      | union mode branches =>
          refine enumerates_of_union mode fun branch hbranch => ?_
          exact enumerates_of_each (ih branch hbranch)
      | project verb distinct columns =>
          cases verb with
          | returning => exact enumerates_of_project distinct columns
          | passing => exact .nil (by rintro _ _ (⟨⟨⟩, -⟩ | ⟨⟨⟩, -, -⟩))
      | _ => exact .nil (by rintro _ _ (⟨⟨⟩, -⟩ | ⟨⟨⟩, -, -⟩))

theorem enumerates_bindings (clauses : List Clause) :
    Enumerates (BindsAt clauses) ((returnedOfAll clauses).filterMap Column.binding?) := by
  have hreturned :=
    enumerates_of_each fun clause (_ : clause ∈ clauses) => enumerates_returned clause
  refine (hreturned.filterMap Column.binding?).congr fun place pair => ?_
  simp only [BindsAt, Column.binding?_eq_some_iff]

end Clause

/-! ## The bindings -/

namespace Query

variable {clauses : List Clause} {parameters : OrderedMap String Value} {query : Query}

theorem bindings_eq (h : compile clauses parameters = .ok query) :
    query.bindings = ((Clause.returnedOfAll clauses).filterMap Column.binding?).eraseDups := by
  obtain ⟨-, rfl⟩ := compile_eq_ok_iff.mp h
  rw [ofPlaced, Clause.bindingsOfAll_eq, addBindings_nil]

/-- The destination of a name is that of the first column that bears it and has one. -/
theorem destination?_eq_some_iff (h : compile clauses parameters = .ok query) {name : String}
    {token : Token} :
    query.destination? name = some token ↔ ∃ place, Clause.BindsAt clauses place (name, token) ∧
      ∀ earlier < place, ∀ other, ¬ Clause.BindsAt clauses earlier (name, other) := by
  rw [destination?, bindings_eq h, find?_eraseDups, Option.map_eq_some_iff]
  simp only [(Clause.enumerates_bindings clauses).find?_eq_some_iff, decide_eq_true_eq,
    decide_eq_false_iff_not]
  constructor
  · rintro ⟨⟨found, token'⟩, ⟨rfl, place, hbinds, hfirst⟩, rfl⟩
    exact ⟨place, hbinds, fun earlier hearlier other hother => hfirst earlier hearlier _ hother rfl⟩
  · rintro ⟨place, hbinds, hfirst⟩
    refine ⟨(name, token), ⟨rfl, place, hbinds, ?_⟩, rfl⟩
    rintro earlier hearlier ⟨found, other⟩ hother rfl
    exact hfirst earlier hearlier other hother

theorem destination?_eq_none_iff (h : compile clauses parameters = .ok query) {name : String} :
    query.destination? name = none ↔
      ∀ place token, ¬ Clause.BindsAt clauses place (name, token) := by
  rw [destination?, bindings_eq h, find?_eraseDups, Option.map_eq_none_iff, List.find?_eq_none]
  simp only [(Clause.enumerates_bindings clauses).mem_iff, decide_eq_true_eq]
  constructor
  · exact fun hnone place token hbinds => hnone _ ⟨place, hbinds⟩ rfl
  · rintro hnone ⟨found, token⟩ ⟨place, hbinds⟩ rfl
    exact hnone place token hbinds

/-- The bindings of a query are those of the columns it returns, each pair once and in the order of
first return. A name has the destination of the first column that bears it and has one. -/
theorem bindings_visible (h : compile clauses parameters = .ok query) :
    query.bindings.Nodup ∧
    (∀ pair, pair ∈ query.bindings ↔ ∃ place, Clause.BindsAt clauses place pair) ∧
    (query.bindings.Pairwise fun pair later => ∀ place, Clause.BindsAt clauses place later →
      ∃ earlier < place, Clause.BindsAt clauses earlier pair) ∧
    ∀ name,
      (∀ token, query.destination? name = some token ↔
        ∃ place, Clause.BindsAt clauses place (name, token) ∧
          ∀ earlier < place, ∀ other, ¬ Clause.BindsAt clauses earlier (name, other)) ∧
      (query.destination? name = none ↔
        ∀ place token, ¬ Clause.BindsAt clauses place (name, token)) := by
  have hplaces := Clause.enumerates_bindings clauses
  refine ⟨?_, fun pair => ?_, ?_, fun name =>
    ⟨fun token => destination?_eq_some_iff h, destination?_eq_none_iff h⟩⟩
  · rw [bindings_eq h]
    exact nodup_eraseDups _
  · rw [bindings_eq h, List.mem_eraseDups, hplaces.mem_iff]
  · rw [bindings_eq h]
    exact hplaces.eraseDups_pairwise

/-- A name is returned by a subquery, without a destination in one branch of a union, with one in a
union inside another branch, and with one more at the end. -/
def repeatedReturns : List Clause :=
  [.subquery [.project .returning false [⟨"n", "n", some ⟨1⟩⟩]],
    .union .distinct
      [[.project .returning false [⟨"n", "n", none⟩, ⟨"m", "m", some ⟨2⟩⟩]],
        [.union .all
          [[.project .returning false [⟨"m", "m", some ⟨2⟩⟩]],
            [.project .returning true [⟨"a.n", "n", some ⟨3⟩⟩]]]]],
    .project .returning false [⟨"b.n", "n", some ⟨4⟩⟩]]

theorem bindings_visible_repeatedReturns :
    (ofPlaced repeatedReturns ∅).bindings = [("m", ⟨2⟩), ("n", ⟨3⟩), ("n", ⟨4⟩)] ∧
    ∀ name token, (ofPlaced repeatedReturns ∅).destination? name = some token ↔
      ∃ place, Clause.BindsAt repeatedReturns place (name, token) ∧
        ∀ earlier < place, ∀ other, ¬ Clause.BindsAt repeatedReturns earlier (name, other) := by
  have hcompile : compile repeatedReturns ∅ = .ok (ofPlaced repeatedReturns ∅) :=
    compile_eq_ok_iff.mpr ⟨rfl, rfl⟩
  obtain ⟨-, -, -, hdestination⟩ := bindings_visible hcompile
  exact ⟨by decide, fun name token => (hdestination name).1 token⟩

end Query

end GraphQuery
