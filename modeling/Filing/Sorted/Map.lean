import Filing.Sorted.Ascending

/-!
# Sorted maps

A map from keys to values is an ascending list of pairs.  The order is part of the type, so a
listing of the keys is the sorted listing, and two maps with the same look-ups are the same value.

* `find?_insert`, `find?_erase`, `find?_modify`: what each operation does to a look-up.
* `mem_entries_iff`: the pairs of the list are exactly the successful look-ups.
* `SortedMap.ext`: **look-ups decide equality**.
-/

namespace Filing

open Sorted

/-- Pairs of a key and a value, in strictly ascending key order. -/
structure SortedMap (κ α : Type) [Ord κ] where
  /-- The pairs, smallest key first. -/
  entries : List (κ × α)
  /-- No key is repeated, and the keys ascend. -/
  ascending : Ascending Prod.fst entries

namespace SortedMap

variable {κ α : Type} [Ord κ]

theorem eq_of_entries_eq {m m' : SortedMap κ α} (h : m.entries = m'.entries) : m = m' := by
  cases m
  cases m'
  cases h
  rfl

instance [DecidableEq κ] [DecidableEq α] : DecidableEq (SortedMap κ α) := fun a b =>
  decidable_of_iff (a.entries = b.entries) ⟨eq_of_entries_eq, congrArg _⟩

/-- The map without keys. -/
def empty : SortedMap κ α := ⟨[], .nil⟩

instance : EmptyCollection (SortedMap κ α) := ⟨empty⟩

instance : Inhabited (SortedMap κ α) := ⟨empty⟩

def size (m : SortedMap κ α) : Nat := m.entries.length

def isEmpty (m : SortedMap κ α) : Bool := m.entries.isEmpty

def keys (m : SortedMap κ α) : List κ := m.entries.map (·.1)

def values (m : SortedMap κ α) : List α := m.entries.map (·.2)

/-- The value of the first pair with key `k`. -/
def lookup (k : κ) : List (κ × α) → Option α
  | [] => none
  | (j, v) :: rest => if compare k j = .eq then some v else lookup k rest

/-- The value stored under `k`. -/
def find? (m : SortedMap κ α) (k : κ) : Option α := lookup k m.entries

/-- Whether a value is stored under `k`. -/
def contains (m : SortedMap κ α) (k : κ) : Bool := (m.find? k).isSome

/-- Removes key `k`. -/
def erase (m : SortedMap κ α) (k : κ) : SortedMap κ α :=
  ⟨m.entries.filter fun e => compare e.1 k != .eq, m.ascending.filter _⟩

/-- Applies `f` to the value stored under `k`, if there is one. -/
def modify (m : SortedMap κ α) (k : κ) (f : α → α) : SortedMap κ α :=
  ⟨m.entries.map fun e => if compare e.1 k = .eq then (e.1, f e.2) else e,
    m.ascending.map _ fun e => by split <;> rfl⟩

variable [Std.TransOrd κ] [Std.LawfulEqOrd κ]

/-- Stores `v` under `k`, over any earlier value. -/
def insert (m : SortedMap κ α) (k : κ) (v : α) : SortedMap κ α :=
  ⟨place Prod.fst (k, v) m.entries, m.ascending.place _⟩

/-- The map of a list of pairs, of which the last with a given key counts. -/
def ofList (l : List (κ × α)) : SortedMap κ α :=
  l.foldl (fun m e => m.insert e.1 e.2) empty

/-! ## Look-ups -/

omit [Std.TransOrd κ] in
theorem lookup_mem {k : κ} {v : α} {l : List (κ × α)} (h : lookup k l = some v) : (k, v) ∈ l := by
  induction l with
  | nil => simp [lookup] at h
  | cons e rest ih =>
    simp only [lookup] at h
    split at h
    · next heq =>
      rw [Std.compare_eq_iff_eq] at heq
      cases h
      exact heq ▸ List.mem_cons_self
    · exact List.mem_cons_of_mem _ (ih h)

omit [Std.LawfulEqOrd κ] in
theorem lookup_isSome {k : κ} {v : α} {l : List (κ × α)} (h : (k, v) ∈ l) :
    ∃ w, lookup k l = some w := by
  induction l with
  | nil => cases h
  | cons e rest ih =>
    simp only [lookup]
    split
    · exact ⟨_, rfl⟩
    · next hne =>
      rcases List.mem_cons.mp h with rfl | h
      · exact absurd Std.ReflCmp.compare_self hne
      · exact ih h

theorem mem_entries_iff {m : SortedMap κ α} {k : κ} {v : α} :
    (k, v) ∈ m.entries ↔ m.find? k = some v := by
  refine ⟨fun h => ?_, lookup_mem⟩
  obtain ⟨w, hw⟩ := lookup_isSome h
  have := m.ascending.eq_of_key_eq h (lookup_mem hw) rfl
  rw [find?, hw, (Prod.mk.inj this).2]

/-- **Look-ups decide equality.** -/
theorem ext {m m' : SortedMap κ α} (h : ∀ k, m.find? k = m'.find? k) : m = m' :=
  eq_of_entries_eq <| m.ascending.eq_of_mem_iff m'.ascending fun e => by
    rw [mem_entries_iff (k := e.1), mem_entries_iff (k := e.1), h]

omit [Std.TransOrd κ] [Std.LawfulEqOrd κ] in
@[simp] theorem find?_empty (k : κ) : (empty : SortedMap κ α).find? k = none := rfl

theorem find?_insert [DecidableEq κ] (m : SortedMap κ α) (k j : κ) (v : α) :
    (m.insert k v).find? j = if j = k then some v else m.find? j := by
  refine Option.ext fun w => ?_
  rw [← mem_entries_iff, insert, mem_place_iff m.ascending, mem_entries_iff]
  grind

theorem find?_erase [DecidableEq κ] (m : SortedMap κ α) (k j : κ) :
    (m.erase k).find? j = if j = k then none else m.find? j := by
  refine Option.ext fun w => ?_
  rw [← mem_entries_iff, erase, List.mem_filter, mem_entries_iff]
  by_cases h : j = k <;> simp [h]

theorem find?_modify [DecidableEq κ] (m : SortedMap κ α) (k j : κ) (f : α → α) :
    (m.modify k f).find? j = if j = k then (m.find? j).map f else m.find? j := by
  refine Option.ext fun w => ?_
  rw [← mem_entries_iff, modify, List.mem_map]
  simp only [Std.compare_eq_iff_eq]
  constructor
  · rintro ⟨⟨i, u⟩, hm, he⟩
    have := mem_entries_iff.mp hm
    grind
  · intro h
    split at h
    · obtain ⟨u, hu, rfl⟩ := Option.map_eq_some_iff.mp h
      exact ⟨(j, u), mem_entries_iff.mpr hu, by grind⟩
    · exact ⟨(j, w), mem_entries_iff.mpr h, by grind⟩

theorem contains_iff {m : SortedMap κ α} {k : κ} : m.contains k = true ↔ k ∈ m.keys := by
  rw [contains, Option.isSome_iff_exists, keys, List.mem_map]
  constructor
  · rintro ⟨v, hv⟩
    exact ⟨(k, v), mem_entries_iff.mpr hv, rfl⟩
  · rintro ⟨⟨j, v⟩, hm, rfl⟩
    exact ⟨v, mem_entries_iff.mp hm⟩

end SortedMap

end Filing
