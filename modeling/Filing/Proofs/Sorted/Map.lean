import Filing.Sorted.Map
import Mathlib.Data.List.Dedup

/-!
# Sizes and listings of sorted maps

A look-up tells what is stored under one key.  What is counted or listed over all keys follows from
the look-ups, because no key is repeated.

* `keys_eq_of_isSome_eq`: the keys are listed alike wherever the same keys are known.
* `nodup_map_values_iff`: what is listed of the values repeats nothing exactly if it tells the keys.
* `size_insert`, `size_erase`: a new key counts one more, a known one that is erased one less.
* `erase_comm`, `erase_insert`: erasing commutes, and undoes the insertion of a new key.
* `find?_ofList`, `size_ofList_eq_iff`: a list of pairs makes a map of the same size exactly when it
  repeats no key, and then the map has exactly these pairs.
-/

namespace Filing.SortedMap

variable {κ α : Type} [Ord κ] [Std.TransOrd κ] [Std.LawfulEqOrd κ]

/-! ## Keys and values -/

omit [Std.LawfulEqOrd κ] in
theorem keys_nodup (m : SortedMap κ α) : m.keys.Nodup := by
  rw [keys, List.Nodup, List.pairwise_map]
  refine m.ascending.imp fun {a b} hab he => ?_
  rw [he] at hab
  exact Sorted.not_lt_self _ hab

theorem mem_keys_iff {m : SortedMap κ α} {k : κ} : k ∈ m.keys ↔ ∃ v, m.find? k = some v := by
  rw [← contains_iff, contains, Option.isSome_iff_exists]

theorem mem_values_iff {m : SortedMap κ α} {v : α} :
    v ∈ m.values ↔ ∃ k, m.find? k = some v := by
  rw [values, List.mem_map]
  constructor
  · rintro ⟨⟨k, w⟩, hm, rfl⟩
    exact ⟨k, mem_entries_iff.mp hm⟩
  · rintro ⟨k, hk⟩
    exact ⟨(k, v), mem_entries_iff.mpr hk, rfl⟩

/-- **A property of the values tells the keys apart** exactly if its list repeats nothing. -/
theorem nodup_map_values_iff {β : Type} {m : SortedMap κ α} {f : α → β} :
    (m.values.map f).Nodup ↔
      ∀ {k k' v v'}, m.find? k = some v → m.find? k' = some v' → f v = f v' → k = k' := by
  rw [values, List.map_map]
  constructor
  · intro hn k k' v v' hv hv' hf
    exact congrArg Prod.fst
      (List.inj_on_of_nodup_map hn (mem_entries_iff.mpr hv) (mem_entries_iff.mpr hv') hf)
  · intro h
    refine List.pairwise_map.mpr ((List.pairwise_map.mp m.keys_nodup).imp_of_mem
      fun {a b} ha hb hne hf => hne ?_)
    exact h (mem_entries_iff.mp ha) (mem_entries_iff.mp hb) hf

/-- **Two maps that store something under the same keys list them alike.** -/
theorem keys_eq_of_isSome_eq {β : Type} {m : SortedMap κ α} {m' : SortedMap κ β}
    (h : ∀ k, (m.find? k).isSome = (m'.find? k).isSome) : m.keys = m'.keys := by
  have ha : ∀ {γ : Type} (l : SortedMap κ γ), Sorted.Ascending id l.keys := fun l =>
    List.pairwise_map.mpr l.ascending
  refine (ha m).eq_of_mem_iff (ha m') fun k => ?_
  rw [← contains_iff, ← contains_iff, contains, contains, h]

omit [Std.TransOrd κ] [Std.LawfulEqOrd κ] in
theorem length_keys (m : SortedMap κ α) : m.keys.length = m.size := List.length_map _

omit [Std.TransOrd κ] [Std.LawfulEqOrd κ] in
theorem length_values (m : SortedMap κ α) : m.values.length = m.size := List.length_map _

omit [Std.TransOrd κ] [Std.LawfulEqOrd κ] in
theorem contains_eq_true_iff {m : SortedMap κ α} {k : κ} :
    m.contains k = true ↔ ∃ v, m.find? k = some v := by
  rw [contains, Option.isSome_iff_exists]

omit [Std.TransOrd κ] [Std.LawfulEqOrd κ] in
theorem contains_eq_false_iff {m : SortedMap κ α} {k : κ} :
    m.contains k = false ↔ m.find? k = none := by
  rw [contains, Option.isSome_eq_false_iff, Option.isNone_iff_eq_none]

/-! ## Sizes -/

section Size

variable [DecidableEq κ]

theorem size_insert {m : SortedMap κ α} {k : κ} (v : α) (h : m.find? k = none) :
    (m.insert k v).size = m.size + 1 := by
  have hk : k ∉ m.keys := fun hm => by
    obtain ⟨w, hw⟩ := mem_keys_iff.mp hm
    rw [h] at hw
    cases hw
  have hp : (m.insert k v).keys.Perm (k :: m.keys) := by
    refine (List.perm_ext_iff_of_nodup (keys_nodup _)
      (List.nodup_cons.mpr ⟨hk, keys_nodup m⟩)).mpr fun j => ?_
    rw [mem_keys_iff, List.mem_cons, mem_keys_iff]
    simp only [find?_insert]
    by_cases hj : j = k <;> simp [hj]
  rw [← length_keys, hp.length_eq, List.length_cons, length_keys]

theorem size_erase {m : SortedMap κ α} {k : κ} {v : α} (h : m.find? k = some v) :
    (m.erase k).size + 1 = m.size := by
  have hk : k ∉ (m.erase k).keys := fun hm => by
    obtain ⟨w, hw⟩ := mem_keys_iff.mp hm
    rw [find?_erase, if_pos rfl] at hw
    cases hw
  have hp : m.keys.Perm (k :: (m.erase k).keys) := by
    refine (List.perm_ext_iff_of_nodup (keys_nodup m)
      (List.nodup_cons.mpr ⟨hk, keys_nodup _⟩)).mpr fun j => ?_
    rw [mem_keys_iff, List.mem_cons, mem_keys_iff]
    simp only [find?_erase]
    by_cases hj : j = k
    · subst hj
      simp [h]
    · simp [hj]
  rw [← length_keys m, hp.length_eq, List.length_cons, length_keys]

omit [Std.TransOrd κ] [Std.LawfulEqOrd κ] [DecidableEq κ] in
theorem size_modify (m : SortedMap κ α) (k : κ) (f : α → α) : (m.modify k f).size = m.size :=
  List.length_map _

end Size

/-! ## Erasing -/

section Erase

variable [DecidableEq κ]

theorem erase_comm (m : SortedMap κ α) (j k : κ) : (m.erase j).erase k = (m.erase k).erase j := by
  refine ext fun i => ?_
  simp only [find?_erase]
  by_cases hj : i = j <;> by_cases hk : i = k <;> simp [hj, hk]

theorem erase_insert {m : SortedMap κ α} {k : κ} (v : α) (h : m.find? k = none) :
    (m.insert k v).erase k = m := by
  refine ext fun i => ?_
  rw [find?_erase, find?_insert]
  by_cases hi : i = k
  · rw [if_pos hi, hi, h]
  · rw [if_neg hi, if_neg hi]

end Erase

/-! ## Maps of lists -/

section OfList

variable [DecidableEq κ]

theorem mem_keys_ofList {l : List (κ × α)} {k : κ} : k ∈ (ofList l).keys ↔ k ∈ l.map (·.1) := by
  suffices h : ∀ m : SortedMap κ α,
      k ∈ (l.foldl (fun m e => m.insert e.1 e.2) m).keys ↔ k ∈ m.keys ∨ k ∈ l.map (·.1) by
    rw [ofList, h]
    simp [keys, empty]
  induction l with
  | nil => simp
  | cons e l ih =>
    intro m
    have he : k ∈ (m.insert e.1 e.2).keys ↔ k = e.1 ∨ k ∈ m.keys := by
      rw [mem_keys_iff, mem_keys_iff]
      simp only [find?_insert]
      by_cases hk : k = e.1 <;> simp [hk]
    rw [List.foldl_cons, ih, he, List.map_cons, List.mem_cons]
    tauto

theorem mem_of_find?_ofList {l : List (κ × α)} {k : κ} {v : α} (h : (ofList l).find? k = some v) :
    (k, v) ∈ l := by
  suffices hf : ∀ m : SortedMap κ α,
      (l.foldl (fun m e => m.insert e.1 e.2) m).find? k = some v →
        m.find? k = some v ∨ (k, v) ∈ l by
    rcases hf _ h with h' | h'
    · cases h'
    · exact h'
  clear h
  induction l with
  | nil => exact fun m h => .inl h
  | cons e l ih =>
    intro m h
    rcases ih _ h with h' | h'
    · rw [find?_insert] at h'
      split at h'
      · next hk =>
        cases h'
        exact .inr (hk ▸ List.mem_cons_self)
      · exact .inl h'
    · exact .inr (List.mem_cons_of_mem _ h')

theorem find?_ofList {l : List (κ × α)} (hn : (l.map (·.1)).Nodup) {k : κ} {v : α} :
    (ofList l).find? k = some v ↔ (k, v) ∈ l := by
  refine ⟨mem_of_find?_ofList, fun h => ?_⟩
  have hk : k ∈ (ofList l).keys := mem_keys_ofList.mpr (List.mem_map.mpr ⟨_, h, rfl⟩)
  obtain ⟨w, hw⟩ := mem_keys_iff.mp hk
  have he := List.inj_on_of_nodup_map hn h (mem_of_find?_ofList hw) rfl
  rw [hw, (Prod.mk.inj he).2]

theorem ofList_entries (m : SortedMap κ α) : ofList m.entries = m := by
  refine ext fun k => Option.ext fun v => ?_
  rw [find?_ofList m.keys_nodup, mem_entries_iff]

theorem keys_ofList_perm (l : List (κ × α)) : (ofList l).keys.Perm (l.map (·.1)).dedup :=
  (List.perm_ext_iff_of_nodup (keys_nodup _) (List.nodup_dedup _)).mpr fun k => by
    rw [mem_keys_ofList, List.mem_dedup]

theorem size_ofList_le (l : List (κ × α)) : (ofList l).size ≤ l.length := by
  rw [← length_keys, (keys_ofList_perm l).length_eq]
  exact le_of_le_of_eq (List.dedup_sublist _).length_le (List.length_map _)

/-- **The size tells whether a key was repeated.** -/
theorem size_ofList_eq_iff {l : List (κ × α)} :
    (ofList l).size = l.length ↔ (l.map (·.1)).Nodup := by
  rw [← length_keys, (keys_ofList_perm l).length_eq]
  constructor
  · intro h
    have hs := (List.dedup_sublist (l.map (·.1))).eq_of_length (by rw [h, List.length_map])
    exact List.dedup_eq_self.mp hs
  · intro h
    rw [h.dedup, List.length_map]

end OfList

end Filing.SortedMap
