/-!
# Ordered maps

A finite map that remembers the order in which its keys first came. Writing to a key that is
present changes the value and leaves the key where it stands.
-/

namespace GraphQuery

structure OrderedMap (κ α : Type) where
  entries : List (κ × α)
  distinct : (entries.map Prod.fst).Nodup

namespace OrderedMap

variable {κ α : Type} [DecidableEq κ]

/-! ## Entry lists -/

/-- Overwrites the entry of `key`, or adds one at the end. -/
def write (key : κ) (value : α) : List (κ × α) → List (κ × α)
  | [] => [(key, value)]
  | entry :: rest => if entry.1 = key then (key, value) :: rest else entry :: write key value rest

theorem mem_keys_write (key : κ) (value : α) (entries : List (κ × α)) (k : κ) :
    k ∈ (write key value entries).map Prod.fst ↔ k = key ∨ k ∈ entries.map Prod.fst := by
  induction entries with
  | nil => simp [write]
  | cons entry rest ih =>
      rw [write]
      split
      · next h => simp [h]
      · simp only [List.map_cons, List.mem_cons, ih]
        grind

theorem nodup_keys_write (key : κ) (value : α) (entries : List (κ × α))
    (distinct : (entries.map Prod.fst).Nodup) : ((write key value entries).map Prod.fst).Nodup := by
  induction entries with
  | nil => simp [write]
  | cons entry rest ih =>
      rw [write]
      simp only [List.map_cons, List.nodup_cons] at distinct
      split
      · next h => simpa [← h] using distinct
      · next h =>
          simp only [List.map_cons, List.nodup_cons, mem_keys_write]
          exact ⟨fun member => member.elim h distinct.1, ih distinct.2⟩

/-! ## Maps -/

def empty : OrderedMap κ α := ⟨[], by simp⟩

instance : EmptyCollection (OrderedMap κ α) := ⟨empty⟩

instance : Inhabited (OrderedMap κ α) := ⟨empty⟩

def size (map : OrderedMap κ α) : Nat := map.entries.length

def isEmpty (map : OrderedMap κ α) : Bool := map.entries.isEmpty

def keys (map : OrderedMap κ α) : List κ := map.entries.map Prod.fst

def get? (map : OrderedMap κ α) (key : κ) : Option α :=
  (map.entries.find? fun entry => entry.1 = key).map Prod.snd

def contains (map : OrderedMap κ α) (key : κ) : Bool := (map.get? key).isSome

def insert (map : OrderedMap κ α) (key : κ) (value : α) : OrderedMap κ α :=
  ⟨write key value map.entries, nodup_keys_write key value map.entries map.distinct⟩

/-- Writes entries in turn, so of two entries with one key the later value stays. -/
def insertAll (map : OrderedMap κ α) (entries : List (κ × α)) : OrderedMap κ α :=
  entries.foldl (fun map entry => map.insert entry.1 entry.2) map

def ofList (entries : List (κ × α)) : OrderedMap κ α := empty.insertAll entries

def erase (map : OrderedMap κ α) (key : κ) : OrderedMap κ α :=
  ⟨map.entries.filter fun entry => entry.1 ≠ key,
    map.distinct.sublist (List.filter_sublist.map Prod.fst)⟩

/-- Whether two maps hold the same values under the same keys, in whatever order. -/
def sameEntries [DecidableEq α] (left right : OrderedMap κ α) : Bool :=
  left.size = right.size && left.entries.all fun entry => right.get? entry.1 = some entry.2

/-! ## Look-up after a change -/

@[simp] theorem get?_empty (key : κ) : (empty : OrderedMap κ α).get? key = none := rfl

private theorem find?_write (key : κ) (value : α) (entries : List (κ × α)) (k : κ) :
    ((write key value entries).find? fun entry => entry.1 = k).map Prod.snd =
      if key = k then some value else (entries.find? fun entry => entry.1 = k).map Prod.snd := by
  induction entries with
  | nil => by_cases h : key = k <;> simp [write, h]
  | cons entry rest ih =>
      rw [write]
      by_cases h : entry.1 = key <;> by_cases hk : key = k <;> by_cases he : entry.1 = k <;>
        simp_all

@[simp, grind =] theorem get?_insert (map : OrderedMap κ α) (key : κ) (value : α) (k : κ) :
    (map.insert key value).get? k = if key = k then some value else map.get? k :=
  find?_write key value map.entries k

@[simp, grind =] theorem get?_erase (map : OrderedMap κ α) (key k : κ) :
    (map.erase key).get? k = if key = k then none else map.get? k := by
  simp only [get?, erase, List.find?_filter]
  split
  · next h => simp [h]
  · next h =>
      congr 2
      funext entry
      by_cases he : entry.1 = k <;> grind

end OrderedMap

end GraphQuery
