import Mathlib.Data.List.Perm.Subperm
import GraphQuery.OrderedMap
import GraphQuery.Proofs.FirstOccurrence

/-! # Merging ordered maps

Entries collected apart and then written to a map are those written to it directly: keys keep
their order and values their last word. -/

namespace GraphQuery

namespace OrderedMap

variable {κ α : Type}

@[ext] theorem ext_entries {map other : OrderedMap κ α} (h : map.entries = other.entries) :
    map = other := by
  cases map
  cases other
  simpa using h

theorem nodup_keys (map : OrderedMap κ α) : map.keys.Nodup := map.distinct

theorem length_keys (map : OrderedMap κ α) : map.keys.length = map.size := List.length_map _

variable [DecidableEq κ]

@[simp] theorem keys_insert_of_mem {map : OrderedMap κ α} {key : κ} (k : κ) (value : α)
    (present : key ∈ map.keys) : key ∈ (map.insert k value).keys :=
  (mem_keys_write k value map.entries key).mpr (.inr present)

theorem self_mem_keys_insert (map : OrderedMap κ α) (key : κ) (value : α) :
    key ∈ (map.insert key value).keys :=
  (mem_keys_write key value map.entries key).mpr (.inl rfl)

/-! ## Entries -/

theorem find?_key_iff {entries : List (κ × α)} (distinct : (entries.map Prod.fst).Nodup)
    (key : κ) (value : α) :
    (entries.find? fun entry => entry.1 = key).map Prod.snd = some value ↔
      (key, value) ∈ entries := by
  induction entries with
  | nil => simp
  | cons entry rest ih =>
      obtain ⟨hhead, hrest⟩ := List.nodup_cons.mp distinct
      by_cases h : entry.1 = key
      · have habsent : (key, value) ∉ rest := fun hmem =>
          hhead (h ▸ List.mem_map.mpr ⟨(key, value), hmem, rfl⟩)
        simp [h, habsent, Prod.ext_iff, eq_comm]
      · have hne : (key, value) ≠ entry := fun heq => h (by rw [← heq])
        simpa [h, hne] using ih hrest

theorem get?_eq_some_iff {map : OrderedMap κ α} {key : κ} {value : α} :
    map.get? key = some value ↔ (key, value) ∈ map.entries :=
  find?_key_iff map.distinct key value

theorem mem_keys_iff {map : OrderedMap κ α} {key : κ} :
    key ∈ map.keys ↔ ∃ value, map.get? key = some value := by
  simp only [get?_eq_some_iff, keys, List.mem_map, Prod.exists, exists_and_right, exists_eq_right]

/-- Of two maps of one size, the one that has all entries of the other has no more. -/
theorem sameEntries_iff [DecidableEq α] {map other : OrderedMap κ α} :
    map.sameEntries other = true ↔ ∀ key, map.get? key = other.get? key := by
  have hall : (map.entries.all fun entry => other.get? entry.1 = some entry.2) = true ↔
      ∀ key value, map.get? key = some value → other.get? key = some value := by
    simp only [List.all_eq_true, decide_eq_true_eq, get?_eq_some_iff, Prod.forall]
  rw [sameEntries, Bool.and_eq_true, decide_eq_true_eq, hall, ← length_keys, ← length_keys]
  constructor
  · rintro ⟨hsizes, hentries⟩ key
    have hsubset : map.keys ⊆ other.keys := fun key hkey => by
      obtain ⟨value, hvalue⟩ := mem_keys_iff.mp hkey
      exact mem_keys_iff.mpr ⟨value, hentries key value hvalue⟩
    have hperm : map.keys.Perm other.keys :=
      (List.subperm_of_subset map.nodup_keys hsubset).perm_of_length_le (Nat.le_of_eq hsizes.symm)
    cases hmap : map.get? key with
    | some value => exact (hentries key value hmap).symm
    | none =>
        cases hother : other.get? key with
        | none => rfl
        | some value =>
            have hkey : key ∈ map.keys := hperm.mem_iff.mpr (mem_keys_iff.mpr ⟨value, hother⟩)
            obtain ⟨found, hfound⟩ := mem_keys_iff.mp hkey
            cases hmap.symm.trans hfound
  · intro h
    have hperm : map.keys.Perm other.keys :=
      (List.perm_ext_iff_of_nodup map.nodup_keys other.nodup_keys).mpr fun key => by
        rw [mem_keys_iff, mem_keys_iff, h key]
    exact ⟨hperm.length_eq, fun key value hvalue => (h key).symm.trans hvalue⟩

/-! ## Two writes -/

theorem write_write (key : κ) (first second : α) (entries : List (κ × α)) :
    write key second (write key first entries) = write key second entries := by
  induction entries with
  | nil => simp [write]
  | cons entry rest ih =>
      by_cases h : entry.1 = key
      · simp [write, h]
      · simp [write, h, ih]

/-- A write to a key that is present does not move it, so it may come at any time. -/
theorem write_comm {key other : κ} (hne : other ≠ key) (value second : α)
    {entries : List (κ × α)} (present : key ∈ entries.map Prod.fst) :
    write key value (write other second entries) =
      write other second (write key value entries) := by
  induction entries with
  | nil => simp at present
  | cons entry rest ih =>
      by_cases hkey : entry.1 = key
      · simp [write, hkey, hne.symm]
      · have hrest : key ∈ rest.map Prod.fst := by
          simpa [Ne.symm hkey] using present
        by_cases hother : entry.1 = other
        · simp [write, hother, hne]
        · simp [write, hkey, hother, ih hrest]

theorem insert_insert (map : OrderedMap κ α) (key : κ) (first second : α) :
    (map.insert key first).insert key second = map.insert key second :=
  ext_entries (write_write key first second map.entries)

theorem insert_comm {map : OrderedMap κ α} {key other : κ} (hne : other ≠ key)
    (value second : α) (present : key ∈ map.keys) :
    (map.insert other second).insert key value = (map.insert key value).insert other second :=
  ext_entries (write_comm hne value second present)

/-! ## Many writes -/

@[simp] theorem insertAll_nil (map : OrderedMap κ α) : map.insertAll [] = map := rfl

@[simp] theorem insertAll_cons (map : OrderedMap κ α) (entry : κ × α) (rest : List (κ × α)) :
    map.insertAll (entry :: rest) = (map.insert entry.1 entry.2).insertAll rest := rfl

theorem insert_insertAll {map : OrderedMap κ α} {key : κ} (value : α) {entries : List (κ × α)}
    (present : key ∈ map.keys) (absent : key ∉ entries.map Prod.fst) :
    (map.insertAll entries).insert key value = (map.insert key value).insertAll entries := by
  induction entries generalizing map with
  | nil => rfl
  | cons entry rest ih =>
      obtain ⟨hne, hrest⟩ : key ≠ entry.1 ∧ key ∉ rest.map Prod.fst := by simpa using absent
      rw [insertAll_cons, insertAll_cons, ih (keys_insert_of_mem _ _ present) hrest,
        insert_comm hne.symm _ _ present]

theorem insertAll_write (map : OrderedMap κ α) (key : κ) (value : α) {entries : List (κ × α)}
    (distinct : (entries.map Prod.fst).Nodup) :
    map.insertAll (write key value entries) = (map.insertAll entries).insert key value := by
  induction entries generalizing map with
  | nil => rfl
  | cons entry rest ih =>
      obtain ⟨hhead, hrest⟩ := List.nodup_cons.mp distinct
      by_cases h : entry.1 = key
      · subst h
        rw [insertAll_cons, insert_insertAll value (self_mem_keys_insert _ _ _) hhead,
          insert_insert]
        simp [write]
      · simp only [write, if_neg h, insertAll_cons]
        exact ih _ hrest

/-- Merging a map that one more entry was written to writes that entry last. -/
theorem insertAll_insert (map later : OrderedMap κ α) (key : κ) (value : α) :
    map.insertAll (later.insert key value).entries =
      (map.insertAll later.entries).insert key value :=
  insertAll_write map key value later.distinct

theorem insertAll_insertAll (map later : OrderedMap κ α) (entries : List (κ × α)) :
    map.insertAll (later.insertAll entries).entries =
      (map.insertAll later.entries).insertAll entries := by
  induction entries generalizing later with
  | nil => rfl
  | cons entry rest ih => rw [insertAll_cons, insertAll_cons, ih, insertAll_insert]

theorem insertAll_append (map : OrderedMap κ α) (entries others : List (κ × α)) :
    map.insertAll (entries ++ others) = (map.insertAll entries).insertAll others :=
  List.foldl_append

/-- A map built apart from nothing and then merged. -/
theorem insertAll_ofList (map : OrderedMap κ α) (entries : List (κ × α)) :
    map.insertAll (ofList entries).entries = map.insertAll entries :=
  insertAll_insertAll map empty entries

/-! ## Gathering -/

theorem keys_insert (map : OrderedMap κ α) (key : κ) (value : α) :
    (map.insert key value).keys = if key ∈ map.keys then map.keys else map.keys ++ [key] := by
  have hwrite : ∀ entries : List (κ × α), (write key value entries).map Prod.fst =
      if key ∈ entries.map Prod.fst then entries.map Prod.fst
      else entries.map Prod.fst ++ [key] := by
    intro entries
    induction entries with
    | nil => rfl
    | cons entry rest ih =>
        by_cases h : entry.1 = key
        · simp [write, h]
        · simp only [write, if_neg h, List.map_cons, ih, List.mem_cons, Ne.symm h, false_or]
          split <;> rfl
  exact hwrite map.entries

theorem keys_prefix_insertAll (map : OrderedMap κ α) (entries : List (κ × α)) :
    map.keys <+: (map.insertAll entries).keys := by
  induction entries generalizing map with
  | nil => exact List.prefix_rfl
  | cons entry rest ih =>
      have hinsert : map.keys <+: (map.insert entry.1 entry.2).keys := by
        rw [keys_insert]
        split
        · exact List.prefix_rfl
        · exact List.prefix_append _ _
      exact hinsert.trans (ih _)

theorem write_absent {key : κ} {entries : List (κ × α)} (absent : key ∉ entries.map Prod.fst)
    (value : α) : write key value entries = entries ++ [(key, value)] := by
  induction entries with
  | nil => rfl
  | cons entry rest ih =>
      rw [List.map_cons, List.mem_cons, not_or] at absent
      rw [write, if_neg (Ne.symm absent.1), ih absent.2, List.cons_append]

/-- Entries under keys of their own come after those of the map, as they are. -/
theorem entries_insertAll {map : OrderedMap κ α} {entries : List (κ × α)}
    (distinct : ((map.entries ++ entries).map Prod.fst).Nodup) :
    (map.insertAll entries).entries = map.entries ++ entries := by
  induction entries generalizing map with
  | nil => exact (List.append_nil _).symm
  | cons entry rest ih =>
      have hinsert : (map.insert entry.1 entry.2).entries = map.entries ++ [entry] := by
        refine write_absent (fun present => ?_) entry.2
        rw [List.map_append] at distinct
        exact (List.nodup_append.mp distinct).2.2 _ present _ (.head _) rfl
      rw [insertAll_cons, ih, hinsert, List.append_assoc, List.singleton_append]
      rwa [hinsert, List.append_assoc, List.singleton_append]

theorem entries_ofList {entries : List (κ × α)} (distinct : (entries.map Prod.fst).Nodup) :
    (ofList entries).entries = entries :=
  entries_insertAll distinct

/-- The map holds each key of the entries where it comes first, with the value that comes last. -/
structure Gathers (map : OrderedMap κ α) (entries : List (κ × α)) : Prop where
  keys : map.keys = (entries.map Prod.fst).eraseDups
  get? : ∀ key, map.get? key = (entries.findRev? fun entry => entry.1 = key).map Prod.snd

theorem gathers_empty : (empty : OrderedMap κ α).Gathers [] := ⟨rfl, fun _ => rfl⟩

theorem Gathers.insert {map : OrderedMap κ α} {entries : List (κ × α)} (h : map.Gathers entries)
    (key : κ) (value : α) : (map.insert key value).Gathers (entries ++ [(key, value)]) where
  keys := by
    have hkeys : key ∈ map.keys ↔ key ∈ entries.map Prod.fst := by
      rw [h.keys, List.mem_eraseDups]
    rw [keys_insert, List.map_append, List.map_singleton, eraseDups_concat, h.keys]
    simp only [← hkeys, h.keys]
  get? := by
    intro k
    rw [get?_insert, h.get?, List.findRev?_eq_find?_reverse, List.findRev?_eq_find?_reverse,
      List.reverse_append, List.reverse_singleton, List.singleton_append, List.find?_cons]
    by_cases hkey : key = k <;> simp [hkey]

theorem Gathers.insertAll {map : OrderedMap κ α} {earlier : List (κ × α)}
    (h : map.Gathers earlier) (entries : List (κ × α)) :
    (map.insertAll entries).Gathers (earlier ++ entries) := by
  induction entries generalizing map earlier with
  | nil => simpa using h
  | cons entry rest ih =>
      rw [insertAll_cons, List.append_cons]
      exact ih (h.insert entry.1 entry.2)

theorem gathers_ofList (entries : List (κ × α)) : (ofList entries).Gathers entries :=
  gathers_empty.insertAll entries

theorem Gathers.mem {map : OrderedMap κ α} {entries : List (κ × α)} (h : map.Gathers entries)
    {entry : κ × α} (hentry : entry ∈ map.entries) : entry ∈ entries := by
  have hget : (entries.findRev? fun other => other.1 = entry.1).map Prod.snd = some entry.2 :=
    (h.get? entry.1).symm.trans (get?_eq_some_iff.mpr hentry)
  rw [List.findRev?_eq_find?_reverse, Option.map_eq_some_iff] at hget
  obtain ⟨found, hfind, hvalue⟩ := hget
  have hkey : found.1 = entry.1 := by simpa using List.find?_some hfind
  rw [← Prod.ext hkey hvalue]
  exact List.mem_reverse.mp (List.mem_of_find?_eq_some hfind)

end OrderedMap

end GraphQuery
