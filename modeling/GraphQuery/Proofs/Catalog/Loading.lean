import Mathlib.Data.Finset.Card
import Mathlib.Data.Finset.Dedup
import GraphQuery.Catalog.Basic
import GraphQuery.Proofs.OrderedMap

/-! # Loading catalogs

A list of descriptors is loaded exactly if all descriptors of one name agree. The catalog then has
the first of each name, and the list in another order is loaded to one that says the same. -/

namespace GraphQuery

/-! ## Agreement -/

/-- The descriptors say the same of their type, their properties in whatever order. -/
structure Descriptor.Agree (left right : Descriptor) : Prop where
  typeName : left.typeName = right.typeName
  category : left.category = right.category
  label : left.label = right.label
  properties : ∀ field, left.properties.get? field = right.properties.get? field

namespace Descriptor

theorem agrees_iff {left right : Descriptor} : left.agrees right = true ↔ left.Agree right := by
  simp only [agrees, Bool.and_eq_true, decide_eq_true_eq, OrderedMap.sameEntries_iff]
  exact ⟨fun ⟨⟨⟨typeName, category⟩, label⟩, properties⟩ => ⟨typeName, category, label, properties⟩,
    fun h => ⟨⟨⟨h.typeName, h.category⟩, h.label⟩, h.properties⟩⟩

theorem Agree.refl (descriptor : Descriptor) : descriptor.Agree descriptor :=
  ⟨rfl, rfl, rfl, fun _ => rfl⟩

theorem Agree.symm {left right : Descriptor} (h : left.Agree right) : right.Agree left :=
  ⟨h.typeName.symm, h.category.symm, h.label.symm, fun field => (h.properties field).symm⟩

theorem Agree.trans {left middle right : Descriptor} (h : left.Agree middle)
    (hright : middle.Agree right) : left.Agree right :=
  ⟨h.typeName.trans hright.typeName, h.category.trans hright.category,
    h.label.trans hright.label, fun field => (h.properties field).trans (hright.properties field)⟩

/-! ## Tables -/

/-- The first descriptor that is listed under the name. -/
def listed? (table : List Descriptor) (name : String) : Option Descriptor :=
  table.find? fun descriptor => descriptor.typeName = name

/-- The descriptor differs from the first one that is listed under its name. -/
def Conflicts (table : List Descriptor) (descriptor : Descriptor) : Prop :=
  ∃ first ∈ listed? table descriptor.typeName, ¬ first.Agree descriptor

/-- Descriptors of one name agree. -/
def Consistent (table : List Descriptor) : Prop :=
  ∀ left ∈ table, ∀ right ∈ table, left.typeName = right.typeName → left.Agree right

variable {table others : List Descriptor} {descriptor : Descriptor} {name : String}

theorem listed?_append : listed? (table ++ others) name =
    (listed? table name).or (listed? others name) :=
  List.find?_append

theorem exists_listed?_iff :
    (∃ first, listed? table name = some first) ↔ name ∈ table.map Descriptor.typeName := by
  rw [← Option.isSome_iff_exists, listed?, List.find?_isSome, List.mem_map]
  simp only [decide_eq_true_eq]

theorem mem_of_listed? (h : listed? table name = some descriptor) :
    descriptor ∈ table ∧ descriptor.typeName = name := by
  have hname := List.find?_some h
  exact ⟨List.mem_of_find?_eq_some h, by simpa using hname⟩

/-- A descriptor that comes later is no reason for an earlier one to conflict. -/
theorem conflicts_append_cons (rest : List Descriptor) :
    Conflicts (table ++ descriptor :: rest) descriptor ↔ Conflicts table descriptor := by
  have hself : listed? (descriptor :: rest) descriptor.typeName = some descriptor :=
    List.find?_cons_of_pos (decide_eq_true rfl)
  rw [Conflicts, listed?_append, hself, Conflicts]
  cases listed? table descriptor.typeName with
  | some first => rfl
  | none => simpa using Agree.refl descriptor

/-- It is enough to compare each descriptor with the first of its name. -/
theorem consistent_iff :
    Consistent table ↔ ∀ descriptor ∈ table, ¬ Conflicts table descriptor := by
  constructor
  · rintro h descriptor hdescriptor ⟨first, hfirst, hdiffers⟩
    obtain ⟨hmem, hname⟩ := mem_of_listed? hfirst
    exact hdiffers (h first hmem descriptor hdescriptor hname)
  · intro h left hleft right hright hname
    obtain ⟨first, hfirst⟩ := exists_listed?_iff.mpr (List.mem_map_of_mem hleft)
    have hagree : ∀ descriptor ∈ table, descriptor.typeName = left.typeName →
        first.Agree descriptor := by
      intro descriptor hdescriptor hsame
      by_contra hdiffers
      exact h descriptor hdescriptor ⟨first, hsame ▸ hfirst, hdiffers⟩
    exact (hagree left hleft rfl).symm.trans (hagree right hright hname.symm)

theorem Consistent.perm (h : Consistent table) (hperm : others.Perm table) :
    Consistent others := fun left hleft right hright =>
  h left (hperm.mem_iff.mp hleft) right (hperm.mem_iff.mp hright)

end Descriptor

open Descriptor

namespace Catalog

variable {catalog : Catalog} {table rest : List Descriptor} {descriptor : Descriptor}

/-! ## Insertion -/

/-- The catalog has the first descriptor that is listed under each name, and no others. -/
def Holds (catalog : Catalog) (table : List Descriptor) : Prop :=
  ∀ name, catalog.types.get? name = listed? table name

theorem holds_empty : Holds {} [] := fun _ => rfl

/-- A descriptor that agrees with the first of its name is passed over, one of a new name is
added. -/
theorem Holds.insert (h : catalog.Holds table) (hfits : ¬ Conflicts table descriptor) :
    ∃ later, catalog.insert descriptor = .ok later ∧ later.Holds (table ++ [descriptor]) := by
  have hget := h descriptor.typeName
  cases hlisted : listed? table descriptor.typeName with
  | some first =>
      have hagrees : first.agrees descriptor = true := by
        rw [agrees_iff]
        by_contra hdiffers
        exact hfits ⟨first, hlisted, hdiffers⟩
      refine ⟨catalog, by simp [Catalog.insert, hget, hlisted, hagrees], ?_⟩
      intro name
      rw [h, listed?_append]
      by_cases hname : descriptor.typeName = name
      · rw [← hname, hlisted, Option.some_or]
      · simp [listed?, hname]
  | none =>
      refine ⟨⟨catalog.types.insert descriptor.typeName descriptor⟩,
        by simp only [Catalog.insert, hget, hlisted], ?_⟩
      intro name
      rw [OrderedMap.get?_insert, h, listed?_append]
      by_cases hname : descriptor.typeName = name
      · rw [← hname, hlisted, if_pos rfl]
        simp [listed?]
      · simp [listed?, hname]

theorem Holds.insert_conflict (h : catalog.Holds table) (hconflict : Conflicts table descriptor) :
    catalog.insert descriptor = .error (.duplicateType descriptor.typeName) := by
  obtain ⟨first, hfirst, hdiffers⟩ := hconflict
  have hget : catalog.types.get? descriptor.typeName = some first :=
    (h descriptor.typeName).trans hfirst
  have hagrees : first.agrees descriptor = false := by
    rw [Bool.eq_false_iff]
    intro hagrees
    exact hdiffers (agrees_iff.mp hagrees)
  simp [Catalog.insert, hget, hagrees]

/-! ## Loading -/

/-- The descriptor is the first one of the table that conflicts. -/
def FirstConflict (table : List Descriptor) (descriptor : Descriptor) : Prop :=
  ∃ front back, table = front ++ descriptor :: back ∧ Conflicts table descriptor ∧
    ∀ earlier ∈ front, ¬ Conflicts table earlier

/-- What remains of a table is loaded in full, or up to the first descriptor that conflicts. -/
theorem Holds.insertAll (h : catalog.Holds table)
    (hfits : ∀ earlier ∈ table, ¬ Conflicts (table ++ rest) earlier) :
    (∃ loaded, catalog.insertAll rest = .ok loaded ∧ loaded.Holds (table ++ rest) ∧
        ∀ listed ∈ table ++ rest, ¬ Conflicts (table ++ rest) listed) ∨
      ∃ descriptor, catalog.insertAll rest = .error (.duplicateType descriptor.typeName) ∧
        FirstConflict (table ++ rest) descriptor := by
  induction rest generalizing catalog table with
  | nil =>
      rw [List.append_nil] at hfits ⊢
      exact .inl ⟨catalog, rfl, h, hfits⟩
  | cons descriptor rest ih =>
      by_cases hconflict : Conflicts table descriptor
      · refine .inr ⟨descriptor, ?_, table, rest, rfl, ?_, hfits⟩
        · rw [Catalog.insertAll, h.insert_conflict hconflict]
        · exact (conflicts_append_cons rest).mpr hconflict
      · obtain ⟨later, hinsert, hlater⟩ := h.insert hconflict
        rw [List.append_cons] at hfits ⊢
        rw [Catalog.insertAll, hinsert]
        apply ih hlater
        refine List.forall_mem_append.mpr ⟨hfits, List.forall_mem_singleton.mpr ?_⟩
        rwa [← List.append_cons, conflicts_append_cons]

theorem ofList_cases (table : List Descriptor) :
    (∃ loaded, ofList table = .ok loaded ∧ loaded.Holds table ∧ Consistent table) ∨
      ∃ descriptor, ofList table = .error (.duplicateType descriptor.typeName) ∧
        FirstConflict table descriptor := by
  have hloaded := holds_empty.insertAll (List.forall_mem_nil fun d => ¬ Conflicts ([] ++ table) d)
  rw [ofList]
  simpa only [List.nil_append, ← consistent_iff] using hloaded

theorem exists_ofList_iff : (∃ catalog, ofList table = .ok catalog) ↔ Consistent table := by
  rcases ofList_cases table with ⟨loaded, hloaded, -, hconsistent⟩ | ⟨descriptor, herror, hfirst⟩
  · exact iff_of_true ⟨loaded, hloaded⟩ hconsistent
  · refine iff_of_false ?_ ?_
    · rintro ⟨catalog, hcatalog⟩
      cases hcatalog.symm.trans herror
    · intro hconsistent
      obtain ⟨front, back, hsplit, hconflict, -⟩ := hfirst
      have hmem : descriptor ∈ table := by simp [hsplit]
      exact consistent_iff.mp hconsistent descriptor hmem hconflict

theorem holds_of_ofList (h : ofList table = .ok catalog) : catalog.Holds table := by
  rcases ofList_cases table with ⟨loaded, hloaded, hholds, -⟩ | ⟨descriptor, herror, -⟩
  · cases h.symm.trans hloaded
    exact hholds
  · cases h.symm.trans herror

theorem firstConflict_of_ofList {error : Error} (h : ofList table = .error error) :
    ∃ descriptor, error = .duplicateType descriptor.typeName ∧ FirstConflict table descriptor := by
  rcases ofList_cases table with ⟨loaded, hloaded, -⟩ | ⟨descriptor, herror, hfirst⟩
  · cases h.symm.trans hloaded
  · cases h.symm.trans herror
    exact ⟨descriptor, rfl, hfirst⟩

/-! ## Answers -/

theorem Holds.describe (h : catalog.Holds table) (name : String) :
    catalog.describe name =
      match listed? table name with
      | some descriptor => .ok descriptor
      | none => .error (.unknownType name) := by
  cases hlisted : listed? table name <;> rw [Catalog.describe, h, hlisted]

theorem Holds.size (h : catalog.Holds table) :
    catalog.size = (table.map Descriptor.typeName).toFinset.card := by
  have hnames : catalog.types.keys.toFinset = (table.map Descriptor.typeName).toFinset := by
    ext name
    rw [List.mem_toFinset, List.mem_toFinset, OrderedMap.mem_keys_iff, h, exists_listed?_iff]
  rw [← hnames, List.toFinset_card_of_nodup catalog.types.nodup_keys, OrderedMap.length_keys,
    Catalog.size]

/-- The answers say the same of a type, or that it is unknown. -/
inductive SameAnswer : Except Error Descriptor → Except Error Descriptor → Prop
  | known {left right : Descriptor} (h : left.Agree right) : SameAnswer (.ok left) (.ok right)
  | unknown (name : String) :
      SameAnswer (.error (.unknownType name)) (.error (.unknownType name))

theorem Holds.sameAnswer {shuffled : Catalog} {others : List Descriptor}
    (h : catalog.Holds table) (hshuffled : shuffled.Holds others) (hperm : others.Perm table)
    (hconsistent : Consistent table) (name : String) :
    SameAnswer (catalog.describe name) (shuffled.describe name) := by
  rw [h.describe, hshuffled.describe]
  have hnames : (∃ d, listed? table name = some d) ↔ ∃ d, listed? others name = some d := by
    rw [exists_listed?_iff, exists_listed?_iff, (hperm.map Descriptor.typeName).mem_iff]
  cases hleft : listed? table name with
  | none =>
      cases hright : listed? others name with
      | none => exact .unknown name
      | some right =>
          obtain ⟨left, hfound⟩ := hnames.mpr ⟨right, hright⟩
          cases hleft.symm.trans hfound
  | some left =>
      obtain ⟨right, hright⟩ := hnames.mp ⟨left, hleft⟩
      rw [hright]
      obtain ⟨hmem, hname⟩ := mem_of_listed? hleft
      obtain ⟨hother, hsame⟩ := mem_of_listed? hright
      apply SameAnswer.known
      exact hconsistent left hmem right (hperm.mem_iff.mp hother) (hname.trans hsame.symm)

/-- A table is loaded exactly if its descriptors of one name agree. The catalog has as many types
as there are names, and describes each by the first descriptor that is listed under it. A table
that is not loaded fails with the name of the first descriptor that differs from the first one of
its name. In another order the table is loaded just as well, to a catalog with the same answers. -/
theorem loading_order_independent (table : List Descriptor) :
    ((∃ catalog, ofList table = .ok catalog) ↔ Consistent table) ∧
      (∀ catalog, ofList table = .ok catalog →
        catalog.size = (table.map Descriptor.typeName).toFinset.card ∧
          ∀ name, catalog.describe name =
            match listed? table name with
            | some descriptor => .ok descriptor
            | none => .error (.unknownType name)) ∧
      (∀ error, ofList table = .error error →
        ∃ descriptor, error = .duplicateType descriptor.typeName ∧
          FirstConflict table descriptor) ∧
      ∀ others : List Descriptor, others.Perm table →
        ((∃ catalog, ofList others = .ok catalog) ↔ ∃ catalog, ofList table = .ok catalog) ∧
          ∀ catalog shuffled, ofList table = .ok catalog → ofList others = .ok shuffled →
            ∀ name, SameAnswer (catalog.describe name) (shuffled.describe name) := by
  refine ⟨exists_ofList_iff, ?_, fun _ => firstConflict_of_ofList, ?_⟩
  · intro catalog h
    have hholds := holds_of_ofList h
    exact ⟨hholds.size, hholds.describe⟩
  · intro others hperm
    refine ⟨?_, ?_⟩
    · rw [exists_ofList_iff, exists_ofList_iff]
      exact ⟨fun h => h.perm hperm.symm, fun h => h.perm hperm⟩
    · intro catalog shuffled h hshuffled
      have hconsistent : Consistent table := exists_ofList_iff.mp ⟨catalog, h⟩
      exact (holds_of_ofList h).sameAnswer (holds_of_ofList hshuffled) hperm hconsistent

/-- A type that is listed twice, with its properties in another order, and one of another name. -/
def repeatedTypes : List Descriptor :=
  [⟨"Person", .node, "Person", .ofList [("name", "name"), ("seen", "lastSeen")]⟩,
    ⟨"Knows", .relationship, "KNOWS", ∅⟩,
    ⟨"Person", .node, "Person", .ofList [("seen", "lastSeen"), ("name", "name")]⟩]

theorem loading_order_independent_repeatedTypes :
    (∃ catalog, ofList repeatedTypes = .ok catalog ∧ catalog.size = 2) ∧
      ∃ shuffled, ofList repeatedTypes.reverse = .ok shuffled ∧
        ∀ catalog, ofList repeatedTypes = .ok catalog →
          ∀ name, SameAnswer (catalog.describe name) (shuffled.describe name) := by
  obtain ⟨-, hloaded, -, hshuffled⟩ := loading_order_independent repeatedTypes
  obtain ⟨-, hanswers⟩ := hshuffled _ (List.reverse_perm repeatedTypes)
  refine ⟨⟨_, rfl, (hloaded _ rfl).1.trans (by decide)⟩, _, rfl, ?_⟩
  intro catalog hcatalog
  exact hanswers catalog _ hcatalog rfl

end Catalog

end GraphQuery
